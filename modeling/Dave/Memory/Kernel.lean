import Dave.Memory.Copyout
import Dave.Memory.Mapping

/-!
# The kernel half of an address space

`setupkvm` maps the ranges of `kmap`, some sixty thousand pages. Here its loops are those of the
source, on 32-bit addresses: `mappages` ends when it has come to the last page, by equality, and the
last range ends at `2^32`, where the addresses wrap around. They always end, and then they have done
the same as the loops over numbers of pages.

## Main results

* `wp_setupkvm_pages`: what the directory maps.
* The loops on addresses end, and every address is translated as prescribed.
-/

namespace Dave.Memory

open List

/-! ### The code, on addresses -/

def v2p (a : Word) : Word := a - 0x80000000

/-- An entry of `kmap`, with its addresses. -/
structure KmapEntry where
  virt : Word
  physStart : Word
  physEnd : Word
  writable : Bool

/-- The table `kmap`, when the linker has put `data` at this address. -/
def kmap (data : Word) : List KmapEntry :=
  [⟨0x80000000, 0, 0x100000, true⟩, ⟨0x80100000, v2p 0x80100000, v2p data, false⟩,
    ⟨data, v2p data, 0xE000000, true⟩, ⟨0xFE000000, 0xFE000000, 0, true⟩]

/-- The loop of `mappages`. It has not ended if the result is `none`. -/
def mappagesLoop (last : Word) (perm : Perm) :
    ℕ → PageDir → Word → Word → M (Option (Bool × PageDir))
  | 0, _, _, _ => return none
  | fuel + 1, d, a, pa => do
    match ← walkpgdir d (pageOf a) with
    | none => return some (false, d)
    | some d =>
      if (d.pte (pageOf a)).any (·.present) then throw .remap
      let d := d.setPte (pageOf a) ⟨perm, Fin.ofNat nPage (pageOf pa), true⟩
      if a = last then return some (true, d)
      else
        mappagesLoop last perm fuel d (a + BitVec.ofNat 32 pgSize)
          (pa + BitVec.ofNat 32 pgSize)

/-- Map the addresses from `va` on to the physical addresses from `pa` on. -/
def mappagesAt (fuel : ℕ) (d : PageDir) (va size pa : Word) (perm : Perm) :
    M (Option (Bool × PageDir)) :=
  mappagesLoop (pgRoundDown (va + size - 1)) perm fuel d (pgRoundDown va) pa

/-- The loop of `setupkvm`. -/
def kmapLoopAt (L : Layout) (fuel : ℕ) (d : PageDir) : List KmapEntry → M (Option (Option PageDir))
  | [] => return some (some d)
  | k :: ks => do
    match ← mappagesAt fuel d k.virt (k.physEnd - k.physStart) k.physStart
      ⟨k.writable, false, 0⟩ with
    | none => return none
    | some (false, d) =>
      freevm L d
      return some none
    | some (true, d) => kmapLoopAt L fuel d ks

/-- Set up the kernel part of an address space. -/
def setupkvmAt (L : Layout) (data : Word) (fuel : ℕ) : M (Option (Option PageDir)) := do
  match ← kalloc with
  | none => return some none
  | some f =>
    -- `P2V(PHYSTOP) > (void*)DEVSPACE`
    if (0xFE000000 : Word) < 0xE000000 + 0x80000000 then throw .phystopTooHigh
    kmapLoopAt L fuel ⟨f, fun _ => none⟩ (kmap data)

/-! ### Addresses and pages -/

/-- The ranges of an entry are whole pages, not empty, and end at `2^32` at most. -/
structure KmapEntry.Ok (k : KmapEntry) : Prop where
  virt : offsetOf k.virt = 0
  phys : offsetOf k.physStart = 0
  len : offsetOf (k.physEnd - k.physStart) = 0
  pos : 0 < (k.physEnd - k.physStart).toNat
  virt_le : k.virt.toNat + (k.physEnd - k.physStart).toNat ≤ 2 ^ 32
  phys_le : k.physStart.toNat + (k.physEnd - k.physStart).toNat ≤ 2 ^ 32

/-- The entry in pages. -/
def KmapEntry.toKmap (k : KmapEntry) : Kmap :=
  ⟨pageOf k.virt, pageOf k.physStart, pageOf (k.physEnd - k.physStart), k.writable⟩

section Addresses

variable {a pa last : Word} {n fuel : ℕ} {d : PageDir} {perm : Perm} {L : Layout}

theorem pageOf_eq (a : Word) : pageOf a = a.toNat / 4096 := rfl

theorem offsetOf_eq (a : Word) : offsetOf a = a.toNat % 4096 := rfl

theorem pageOf_add_pgSize (ha : offsetOf a = 0) (hlt : a.toNat + 4096 < 2 ^ 32) :
    pageOf (a + BitVec.ofNat 32 pgSize) = pageOf a + 1 ∧ offsetOf (a + BitVec.ofNat 32 pgSize) = 0 ∧
      (a + BitVec.ofNat 32 pgSize).toNat = a.toNat + 4096 := by
  have hadd : (a + BitVec.ofNat 32 pgSize).toNat = a.toNat + 4096 := by
    have hpg : (BitVec.ofNat 32 pgSize).toNat = 4096 := rfl
    rw [BitVec.toNat_add, hpg]
    omega
  rw [offsetOf_eq] at ha
  rw [pageOf_eq, pageOf_eq, offsetOf_eq, hadd]
  omega

theorem mappagesLoop_eq (ha : offsetOf a = 0) (hpa : offsetOf pa = 0) (hfuel : n < fuel)
    (hend : a.toNat + n * 4096 < 2 ^ 32) (hpend : pa.toNat + n * 4096 < 2 ^ 32)
    (hlast : last.toNat = a.toNat + n * 4096) :
    mappagesLoop last perm fuel d a pa =
      some <$> mappages d (pageOf a) (pageOf pa) perm (n + 1) := by
  obtain ⟨fuel, rfl⟩ : ∃ k, fuel = k + 1 := ⟨fuel - 1, by omega⟩
  induction n generalizing a pa fuel d with
  | zero =>
    have heq : a = last := BitVec.eq_of_toNat_eq (by omega)
    rw [mappagesLoop, mappages, map_bind]
    refine bind_congr fun r => ?_
    cases r with
    | none => rfl
    | some d₁ =>
      simp only [if_pos heq]
      split_ifs with hp <;> rfl
  | succ n ih =>
    have hne : a ≠ last := fun h => by
      have := congrArg BitVec.toNat h
      omega
    obtain ⟨hpage, hoff, hnat⟩ := pageOf_add_pgSize ha (by omega)
    obtain ⟨hppage, hpoff, hpnat⟩ := pageOf_add_pgSize hpa (by omega)
    obtain ⟨fuel, rfl⟩ : ∃ k, fuel = k + 1 := ⟨fuel - 1, by omega⟩
    rw [mappagesLoop, mappages, map_bind]
    refine bind_congr fun r => ?_
    cases r with
    | none => rfl
    | some d₁ =>
      simp only [if_neg hne]
      split_ifs with hp
      · rfl
      · rw [ih hoff hpoff (by omega) (by omega) (by omega) fuel (by omega), hpage, hppage]

theorem mappagesAt_eq {k : KmapEntry} (hk : k.Ok) (hfuel : nPage ≤ fuel) :
    mappagesAt fuel d k.virt (k.physEnd - k.physStart) k.physStart perm =
      some <$> mappages d k.toKmap.virt k.toKmap.phys perm k.toKmap.len := by
  obtain ⟨hvirt, hphys, hlen, hpos, hvle, hple⟩ := hk
  rw [nPage_eq] at hfuel
  rw [offsetOf_eq] at hlen
  -- the range has `n + 1` pages
  obtain ⟨n, hn⟩ : ∃ n, (k.physEnd - k.physStart).toNat = (n + 1) * 4096 :=
    ⟨(k.physEnd - k.physStart).toNat / 4096 - 1, by omega⟩
  have hround : pgRoundDown k.virt = k.virt := by
    refine BitVec.eq_of_toNat_eq ?_
    rw [offsetOf_eq] at hvirt
    rw [pgRoundDown_toNat]
    omega
  have hlast : (pgRoundDown (k.virt + (k.physEnd - k.physStart) - 1)).toNat =
      k.virt.toNat + n * 4096 := by
    have hone : (1 : Word).toNat = 1 := rfl
    rw [offsetOf_eq] at hvirt
    rw [pgRoundDown_toNat, BitVec.toNat_sub, BitVec.toNat_add, hn, hone]
    omega
  have hlen' : k.toKmap.len = n + 1 := by
    rw [KmapEntry.toKmap, pageOf_eq (k.physEnd - k.physStart), hn, Nat.mul_div_cancel _ (by decide)]
  rw [mappagesAt, hround, hlen']
  exact mappagesLoop_eq hvirt hphys (by omega) (by omega) (by omega) hlast

theorem kmapLoopAt_eq {ks : List KmapEntry} (hks : ∀ k ∈ ks, k.Ok) (hfuel : nPage ≤ fuel) :
    kmapLoopAt L fuel d ks = some <$> kmapLoop L d (ks.map KmapEntry.toKmap) := by
  induction ks generalizing d with
  | nil => rfl
  | cons k ks ih =>
    rw [kmapLoopAt, mappagesAt_eq (hks k (mem_cons_self ..)) hfuel, map_cons, kmapLoop,
      map_bind, bind_map_left]
    refine bind_congr fun r => ?_
    obtain ⟨b, d₁⟩ := r
    cases b with
    | false => simp only [map_bind, map_pure]
    | true => exact ih fun k' hk' => hks k' (mem_cons_of_mem _ hk')

end Addresses

/-! ### The kernel -/

/-- How the kernel is linked: where `data` is, and the first whole frame after `end`. -/
structure Link where
  data : Word
  first : ℕ
  aligned : offsetOf data = 0
  link_lt : 0x80100000 < data.toNat
  lt_top : data.toNat < 0x80000000 + 0xE000000
  lt_first : pageOf (v2p data) < first

namespace Link

variable (k : Link)

theorem v2p_data : (v2p k.data).toNat = k.data.toNat - 0x80000000 := by
  have hlink := k.link_lt
  have hbase : (0x80000000 : Word).toNat = 0x80000000 := rfl
  rw [v2p, BitVec.toNat_sub, hbase]
  have := k.data.isLt
  omega

theorem pageOf_data : pageOf k.data = 0x80000 + pageOf (v2p k.data) := by
  have hlink := k.link_lt
  rw [pageOf_eq, pageOf_eq, v2p_data]
  omega

/-- The layout of the kernel. -/
def layout : Layout :=
  .dave k.first (pageOf (v2p k.data))
    (by
      have hlink := k.link_lt
      rw [pageOf_eq, v2p_data]
      omega)
    (by
      have htop := k.lt_top
      rw [pageOf_eq, v2p_data]
      omega)
    k.lt_first

theorem text_len : (v2p k.data - v2p 0x80100000).toNat = k.data.toNat - 0x80100000 := by
  have hlink := k.link_lt
  have htop := k.lt_top
  have hext : (v2p 0x80100000).toNat = 0x100000 := rfl
  rw [BitVec.toNat_sub, k.v2p_data, hext]
  omega

theorem data_len : (0xE000000 - v2p k.data).toNat = 0x8E000000 - k.data.toNat := by
  have hlink := k.link_lt
  have htop := k.lt_top
  have hconst : (0xE000000 : Word).toNat = 0xE000000 := rfl
  rw [BitVec.toNat_sub, k.v2p_data, hconst]
  omega

theorem kmap_ok (e : KmapEntry) (he : e ∈ kmap k.data) : e.Ok := by
  have hlink := k.link_lt
  have htop := k.lt_top
  have haligned := k.aligned
  rw [offsetOf_eq] at haligned
  simp only [kmap, mem_cons, not_mem_nil, or_false] at he
  rcases he with rfl | rfl | rfl | rfl
  · constructor <;> decide
  · have hlen := k.text_len
    have hvirt : (0x80100000 : Word).toNat = 0x80100000 := rfl
    have hphys : (v2p 0x80100000).toNat = 0x100000 := rfl
    constructor <;> simp only [offsetOf_eq, hlen, hvirt, hphys] <;> omega
  · have hlen := k.data_len
    have hphys := k.v2p_data
    constructor <;> simp only [offsetOf_eq, hlen, hphys] <;> omega
  · constructor <;> decide

theorem layout_kmap : k.layout.kmap = (kmap k.data).map KmapEntry.toKmap := by
  have hlink := k.link_lt
  have htop := k.lt_top
  have haligned := k.aligned
  rw [offsetOf_eq] at haligned
  have htext : pageOf (v2p k.data - v2p 0x80100000) = pageOf (v2p k.data) - 0x100 := by
    rw [pageOf_eq, pageOf_eq, k.text_len, k.v2p_data]
    omega
  have hdata : pageOf (0xE000000 - v2p k.data) = 0xE000 - pageOf (v2p k.data) := by
    rw [pageOf_eq, pageOf_eq, k.data_len, k.v2p_data]
    omega
  simp only [layout, Layout.dave, kmap, KmapEntry.toKmap, map_cons, map_nil, htext, hdata,
    k.pageOf_data]
  rfl

theorem setupkvmAt_eq {fuel : ℕ} (hfuel : nPage ≤ fuel) :
    setupkvmAt k.layout k.data fuel = some <$> setupkvm k.layout := by
  rw [setupkvmAt, setupkvm, map_bind]
  refine bind_congr fun r => ?_
  cases r with
  | none => rfl
  | some f =>
    have htop : ¬ 0xFE000 < kernPage + k.layout.phystop := by
      simp only [layout, Layout.dave, kernPage]
      omega
    have htop' : ¬ (0xFE000000 : Word) < 0xE000000 + 0x80000000 := by decide
    simp only [if_neg htop, if_neg htop', kmapLoopAt_eq k.kmap_ok hfuel, k.layout_kmap]

end Link

/-! ### What is mapped -/

/-- Two entries have no page in common. -/
def Kmap.Apart (k k' : Kmap) : Prop := k.virt + k.len ≤ k'.virt ∨ k'.virt + k'.len ≤ k.virt

/-- The entry that page `j` has according to a list of mappings. -/
def pageIn (ks : List Kmap) (j : ℕ) : Option Pte :=
  (ks.find? fun k => k.virt ≤ j ∧ j < k.virt + k.len).map fun k =>
    mapped k.virt k.phys ⟨k.writable, false, 0⟩ j

theorem pageIn_cons (k : Kmap) (ks : List Kmap) (j : ℕ) : pageIn (k :: ks) j =
    if k.virt ≤ j ∧ j < k.virt + k.len then some (mapped k.virt k.phys ⟨k.writable, false, 0⟩ j)
    else pageIn ks j := by
  by_cases h : k.virt ≤ j ∧ j < k.virt + k.len <;> simp [pageIn, h]

theorem pageIn_eq_none {ks : List Kmap} {j : ℕ}
    (h : ∀ k ∈ ks, ¬ (k.virt ≤ j ∧ j < k.virt + k.len)) : pageIn ks j = none := by
  rw [pageIn, Option.map_eq_none_iff, find?_eq_none]
  exact fun k hk => by simpa using h k hk

section Pages

variable {L : Layout} {m : Mem} {d : PageDir} {i : ℕ}

/-- Freeing does not change what is remembered of calls of `kalloc`. -/
theorem wp_kfree_error (f : Frame) :
    Wp (· = .kfree) (kfree L f) (fun _ m' => m'.failed = m.failed) m := by
  rw [kfree]
  split_ifs with h
  · exact rfl
  · rfl

theorem wp_deallocLoop_error {stop n : ℕ} :
    Wp (· = .kfree) (deallocLoop L stop d i n) (fun _ m' => m'.failed = m.failed) m := by
  induction n generalizing d i m with
  | zero => rfl
  | succ n ih =>
    unfold deallocLoop
    split_ifs with hend
    · rfl
    cases d.pte i with
    | none => exact ih
    | some e =>
      dsimp only
      split_ifs with he hzero
      · exact rfl
      · simp only [wp_bind]
        exact (wp_kfree_error e.frame).mono fun _ _ h₁ => ih.mono fun _ _ h₂ => h₂.trans h₁
      · exact ih

theorem wp_freevm_error : Wp (· = .kfree) (freevm L d) (fun _ m' => m'.failed = m.failed) m := by
  have hdealloc : Wp (· = .kfree) (deallocuvm L d kernBase 0)
      (fun _ m' => m'.failed = m.failed) m := by
    unfold deallocuvm
    split_ifs
    · rfl
    · rw [wp_bind]
      exact wp_deallocLoop_error
  simp only [freevm, wp_bind]
  refine hdealloc.mono fun r m₁ h₁ => ?_
  refine (wp_forM (fun _ m' => m'.failed = m.failed) (fun k hk m₂ h₂ => ?_) h₁).mono
    fun _ m₃ h₃ => (wp_kfree_error r.2.frame).mono fun _ _ h => h.trans h₃
  cases r.2.table ((finRange nEntries).get ⟨k, hk⟩) with
  | none => exact h₂
  | some t => exact (wp_kfree_error t.frame).mono fun _ _ h => h.trans h₂

/-- The ranges of the table are mapped one after the other. -/
theorem wp_kmapLoop_pages {ks : List Kmap} (htop : ∀ k ∈ ks, k.virt + k.len ≤ nPage)
    (hapart : ks.Pairwise Kmap.Apart)
    (hnone : ∀ k ∈ ks, ∀ j, k.virt ≤ j → j < k.virt + k.len → d.page j = none) :
    Wp (· = .kfree) (kmapLoop L d ks) (fun r m' => (r = none → m'.failed = true) ∧
      ∀ d', r = some d' → Built d m d' m' ∧ m'.failed = m.failed ∧
        ∀ j < nPage, d'.page j = (pageIn ks j).or (d.page j)) m := by
  induction ks generalizing d m with
  | nil =>
    refine ⟨by simp, ?_⟩
    rintro _ ⟨⟩
    exact ⟨.refl d m, rfl, fun _ _ => rfl⟩
  | cons k ks ih =>
    obtain ⟨hk, hapart⟩ := pairwise_cons.mp hapart
    rw [kmapLoop, wp_bind]
    refine (wp_mappages_exact (htop k (mem_cons_self ..))
      (hnone k (mem_cons_self ..))).mono fun r m₁ hr => ?_
    obtain ⟨b, d₁⟩ := r
    obtain ⟨hbuilt, n, -, hall, hfail, hpage⟩ := hr
    cases b with
    | false =>
      simp only [wp_bind]
      exact wp_freevm_error.mono fun _ _ h => ⟨fun _ => h.trans (hfail rfl).2, by simp⟩
    | true =>
      obtain ⟨rfl, hfailed⟩ := hall rfl
      have hrest (k' : Kmap) (hk' : k' ∈ ks) (j : ℕ) (hj : k'.virt ≤ j)
          (hj' : j < k'.virt + k'.len) : ¬ (k.virt ≤ j ∧ j < k.virt + k.len) := by
        rcases hk k' hk' with h | h <;> omega
      refine (ih (fun k' hk' => htop k' (mem_cons_of_mem _ hk')) hapart
        fun k' hk' j hj hj' => ?_).mono fun r m₂ hr => ⟨hr.1, fun d' hd' => ?_⟩
      · have := htop k' (mem_cons_of_mem _ hk')
        rw [hpage j (by omega), if_neg (hrest k' hk' j hj hj')]
        exact hnone k' (mem_cons_of_mem _ hk') j hj hj'
      · obtain ⟨hbuilt₂, hfailed₂, hpage₂⟩ := hr.2 d' hd'
        refine ⟨hbuilt.trans hbuilt₂, hfailed₂.trans hfailed, fun j hj => ?_⟩
        rw [hpage₂ j hj, hpage j hj, pageIn_cons]
        split_ifs with hcov
        · rw [pageIn_eq_none fun k' hk' h => hrest k' hk' j h.1 h.2 hcov, Option.none_or,
            Option.some_or]
        · rfl

/-- No two kernel mappings have a page in common. -/
def Layout.Apart (L : Layout) : Prop := L.kmap.Pairwise Kmap.Apart

/-- The directory maps the ranges of the table of the kernel, and nothing else. -/
theorem wp_setupkvm_pages (hL : L.Apart) (htop : kernPage + L.phystop ≤ 0xFE000) :
    Wp (· = .kfree) (setupkvm L) (fun r m' => (r = none → m'.failed = true) ∧
      ∀ d, r = some d → m'.failed = m.failed ∧ m'.freelist <:+ m.freelist ∧ m'.ram = m.ram ∧
        ∀ j < nPage, d.page j = pageIn L.kmap j) m := by
  rw [setupkvm, wp_bind]
  refine wp_kalloc_exact.mono fun r m₁ hr => ?_
  obtain ⟨hram, hlist, hfailed⟩ := hr
  cases r with
  | none => exact ⟨fun _ => hfailed, by simp⟩
  | some f =>
    have htop' : ¬ 0xFE000 < kernPage + L.phystop := by omega
    have hempty (j : ℕ) : PageDir.page ⟨f, fun _ => none⟩ j = none :=
      PageDir.page_of_none rfl
    simp only [if_neg htop']
    refine (wp_kmapLoop_pages (fun k hk => (L.kern k hk).2) hL fun _ _ j _ _ =>
      hempty j).mono fun r m₂ hr => ⟨hr.1, fun d hd => ?_⟩
    obtain ⟨hbuilt, hfailed₂, hpage⟩ := hr.2 d hd
    refine ⟨hfailed₂.trans hfailed, hbuilt.free.trans ?_, hbuilt.ram.trans hram, fun j hj => ?_⟩
    · rw [hlist]
      exact suffix_append _ _
    · rw [hpage j hj, hempty, Option.or_none]

/-! ### Enough frames -/

/-- No call of `kalloc` is refused, and there is a free frame for each page table that the directory
does not have, and `k` more. -/
structure Stocked (k : ℕ) (d : PageDir) (m : Mem) : Prop where
  willing : ∀ i, m.refuse i = false
  enough : (Finset.univ.filter fun i => (d.table i).isNone = true).card + k ≤ m.freelist.length

variable {k : ℕ} {E : Panic → Prop}

theorem wp_kalloc_stocked (hwilling : ∀ i, m.refuse i = false) (hpos : 0 < m.freelist.length) :
    Wp E kalloc (fun r m' => r.isSome = true ∧ (∀ i, m'.refuse i = false) ∧
      m.freelist.length = m'.freelist.length + 1) m := by
  obtain ⟨f, rest, hlist⟩ := List.exists_cons_of_length_pos hpos
  simp only [kalloc, wp_bind, wp_get, hwilling, hlist]
  exact ⟨rfl, hwilling, rfl⟩

theorem Stocked.setPte (h : Stocked k d m) (e : Pte) : Stocked k (d.setPte i e) m := by
  have hnone (j : Fin nEntries) : ((d.setPte i e).table j).isNone = (d.table j).isNone := by
    rw [← Option.isNone_map (f := PageTable.frame), d.table_setPte, Option.isNone_map]
  exact ⟨h.willing, by simpa only [hnone] using h.enough⟩

theorem wp_walkpgdir_stocked (h : Stocked k d m) : Wp E (walkpgdir d i) (fun r m' =>
    ∃ d', r = some d' ∧ Stocked k d' m') m := by
  unfold walkpgdir
  split
  · exact ⟨d, rfl, h⟩
  · next hnone =>
    -- the new page table is one of those that were missing
    have hmem : pdx i ∈ Finset.univ.filter fun j => (d.table j).isNone = true := by simp [hnone]
    have hcard := Finset.card_pos.mpr ⟨_, hmem⟩
    have henough := h.enough
    rw [wp_bind]
    refine (wp_kalloc_stocked h.willing (by omega)).mono fun r m' hr' => ?_
    obtain ⟨hr, hwilling, hlen⟩ := hr'
    obtain ⟨f, rfl⟩ := Option.isSome_iff_exists.mp hr
    refine ⟨_, rfl, hwilling, ?_⟩
    have herase : (Finset.univ.filter fun j => ((d.setTable i f).table j).isNone = true) =
        (Finset.univ.filter fun j => (d.table j).isNone = true).erase (pdx i) := by
      ext j
      by_cases hj : j = pdx i
      · simp [hj, PageDir.setTable]
      · simp [hj, PageDir.setTable]
    rw [herase, Finset.card_erase_of_mem hmem]
    omega

theorem wp_mappages_stocked {pa n : ℕ} {perm : Perm} (h : Stocked k d m) :
    Wp (fun _ => True) (mappages d i pa perm n) (fun r m' => r.1 = true ∧ Stocked k r.2 m') m := by
  induction n generalizing d i pa m with
  | zero => exact ⟨rfl, h⟩
  | succ n ih =>
    rw [mappages, wp_bind]
    refine (wp_walkpgdir_stocked h).mono fun r m' hr => ?_
    obtain ⟨d', rfl, h'⟩ := hr
    rw [wp_ite]
    split_ifs
    · trivial
    · exact ih (h'.setPte _)

theorem wp_kmapLoop_stocked {ks : List Kmap} (h : Stocked k d m) : Wp (fun _ => True)
    (kmapLoop L d ks) (fun r m' => ∃ d', r = some d' ∧ Stocked k d' m') m := by
  induction ks generalizing d m with
  | nil => exact ⟨d, rfl, h⟩
  | cons _ ks ih =>
    rw [kmapLoop, wp_bind]
    refine (wp_mappages_stocked h).mono fun r m' hr => ?_
    obtain ⟨b, d'⟩ := r
    obtain ⟨rfl, h'⟩ := hr
    exact ih h'

/-- `setupkvm` returns a directory when there is a frame for it and for all page tables. -/
theorem wp_setupkvm_stocked (hwilling : ∀ i, m.refuse i = false)
    (hlen : nEntries + 1 + k ≤ m.freelist.length) : Wp (fun _ => True) (setupkvm L)
      (fun r m' => ∃ d, r = some d ∧ Stocked k d m') m := by
  rw [setupkvm, wp_bind]
  refine (wp_kalloc_stocked hwilling (by omega)).mono fun r m' hr' => ?_
  obtain ⟨hr, hwilling', hlen'⟩ := hr'
  obtain ⟨f, rfl⟩ := Option.isSome_iff_exists.mp hr
  simp only []
  rw [wp_ite]
  split_ifs
  · trivial
  · refine wp_kmapLoop_stocked ⟨hwilling', ?_⟩
    have hcard : (Finset.univ.filter fun _ : Fin nEntries => True).card = nEntries := by simp
    simp only [Option.isNone_none, hcard]
    omega

end Pages

/-! ### Translation -/

/-- What the processor makes of an address: the physical address, whether it can be written, and
whether a program can use it. -/
def PageDir.translate (d : PageDir) (va : Word) : Option (Word × Bool × Bool) :=
  (d.page (pageOf va)).map fun e =>
    (BitVec.ofNat 32 (e.frame.val * pgSize + offsetOf va), e.writable, e.user)

/-- Where a table of kernel mappings puts an address, and whether it can be written. -/
def prescribed (ks : List KmapEntry) (va : Word) : Option (Word × Bool × Bool) :=
  (ks.find? fun k => k.virt.toNat ≤ va.toNat ∧
    va.toNat < k.virt.toNat + (k.physEnd - k.physStart).toNat).map fun k =>
      (k.physStart + (va - k.virt), k.writable, false)

theorem KmapEntry.Ok.covers {k : KmapEntry} (hk : k.Ok) (va : Word) :
    (k.toKmap.virt ≤ pageOf va ∧ pageOf va < k.toKmap.virt + k.toKmap.len) ↔
      k.virt.toNat ≤ va.toNat ∧ va.toNat < k.virt.toNat + (k.physEnd - k.physStart).toNat := by
  have hvirt := hk.virt
  have hlen := hk.len
  rw [offsetOf_eq] at hvirt hlen
  simp only [toKmap, pageOf_eq]
  omega

theorem KmapEntry.Ok.address {k : KmapEntry} (hk : k.Ok) {va : Word} (hle : k.virt.toNat ≤ va.toNat)
    (hlt : va.toNat < k.virt.toNat + (k.physEnd - k.physStart).toNat) :
    BitVec.ofNat 32 ((Fin.ofNat nPage (k.toKmap.phys + (pageOf va - k.toKmap.virt))).val * pgSize +
      offsetOf va) = k.physStart + (va - k.virt) := by
  have hvirt := hk.virt
  have hphys := hk.phys
  have hple := hk.phys_le
  rw [offsetOf_eq] at hvirt hphys
  refine BitVec.eq_of_toNat_eq ?_
  rw [Fin.val_ofNat, BitVec.toNat_ofNat, BitVec.toNat_add, BitVec.toNat_sub, nPage_eq]
  simp only [toKmap, pageOf_eq, offsetOf_eq, pgSize]
  omega

theorem translate_pageIn {ks : List KmapEntry} (hks : ∀ k ∈ ks, k.Ok) (va : Word) :
    ((pageIn (ks.map KmapEntry.toKmap) (pageOf va)).map fun e =>
      (BitVec.ofNat 32 (e.frame.val * pgSize + offsetOf va), e.writable, e.user)) =
      prescribed ks va := by
  induction ks with
  | nil => rfl
  | cons k ks ih =>
    have hk := hks k (mem_cons_self ..)
    rw [map_cons, pageIn_cons, prescribed, find?_cons]
    by_cases h : k.virt.toNat ≤ va.toNat ∧ va.toNat < k.virt.toNat + (k.physEnd - k.physStart).toNat
    · rw [if_pos ((hk.covers va).mpr h)]
      simp only [h, and_self, decide_true, Option.map_some, mapped, hk.address h.1 h.2]
      rfl
    · rw [if_neg fun hc => h ((hk.covers va).mp hc)]
      simp only [h, decide_false]
      exact ih fun k' hk' => hks k' (mem_cons_of_mem _ hk')

namespace Link

variable (k : Link)

theorem layout_apart : k.layout.Apart := by
  have hlink := k.link_lt
  have htop := k.lt_top
  have hdata : 0x100 ≤ pageOf (v2p k.data) ∧ pageOf (v2p k.data) < 0xE000 := by
    have haligned := k.aligned
    rw [offsetOf_eq] at haligned
    rw [pageOf_eq, v2p_data]
    omega
  simp only [Layout.Apart, layout, Layout.dave, pairwise_cons, mem_cons,
    not_mem_nil, or_false, forall_eq_or_imp, forall_eq, Kmap.Apart, List.Pairwise.nil,
    false_imp_iff, implies_true, and_true]
  omega

theorem prescribed_low {va : Word} (hva : va.toNat < kernBase) :
    prescribed (kmap k.data) va = none := by
  have hlink := k.link_lt
  have hbase : kernBase = 0x80000000 := rfl
  have h1 : (0x80000000 : Word).toNat = 0x80000000 := rfl
  have h2 : (0x80100000 : Word).toNat = 0x80100000 := rfl
  have h4 : (0xFE000000 : Word).toNat = 0xFE000000 := rfl
  rw [prescribed, Option.map_eq_none_iff, find?_eq_none]
  intro e he hcov
  simp only [kmap, mem_cons, not_mem_nil, or_false] at he
  simp only [decide_eq_true_eq] at hcov
  rcases he with rfl | rfl | rfl | rfl
  · simp only [h1] at hcov
    omega
  · simp only [h2] at hcov
    omega
  · dsimp only at hcov
    omega
  · simp only [h4] at hcov
    omega

/-- Whatever calls of `kalloc` fail, the loops of `setupkvm` end without a panic. If it returns a
directory then every address is mapped as `kmap` says, and not for programs; in particular nothing
below `KERNBASE` is mapped. If it returns none, the free frames are those from before. It returns a
directory only if no call of `kalloc` has failed. -/
theorem setupkvmAt_exact {pool : Finset Frame} {X : Multiset Frame} {m : Mem} {fuel : ℕ}
    (hpool : InRange k.layout pool) (h : Conserved pool X m) (hfuel : nPage ≤ fuel) :
    ∃ r m', setupkvmAt k.layout k.data fuel m = .ok (some r, m') ∧
      (∀ d, r = some d → m'.failed = m.failed ∧
        (∀ va, d.translate va = prescribed (kmap k.data) va) ∧
        ∀ va : Word, va.toNat < kernBase → d.translate va = none) ∧
      (r = none → m'.freelist.Perm m.freelist) := by
  have hpages := wp_setupkvm_pages (m := m) k.layout_apart
    (show 0x80000 + 0xE000 ≤ 0xFE000 by decide)
  have hok : Wp (fun _ => False) (setupkvm k.layout) _ m :=
    (((wp_setupkvm hpool h).and_error hpages).weaken fun e he => he.1.1 he.2)
  obtain ⟨r, m', hrun, ⟨hcons, -⟩, hmap⟩ := hok.exists_ok
  refine ⟨r, m', ?_, fun d hd => ?_, fun hr => ?_⟩
  · rw [k.setupkvmAt_eq hfuel]
    simp only [Functor.map, StateT.map, hrun, bind, Except.bind]
    rfl
  · obtain ⟨hfailed, -, -, hpage⟩ := hmap.2 d hd
    have htrans (va : Word) : d.translate va = prescribed (kmap k.data) va := by
      rw [PageDir.translate, hpage _ (pageOf_lt va), k.layout_kmap, translate_pageIn k.kmap_ok]
    exact ⟨hfailed, htrans, fun va hva => (htrans va).trans (k.prescribed_low hva)⟩
  · rw [hr] at hcons
    have heq : (m'.freelist : Multiset Frame) + X = (m.freelist : Multiset Frame) + X := by
      rw [h.eq, ← hcons.eq, Option.elim_none, zero_add]
    exact Multiset.coe_eq_coe.mp (add_right_cancel heq)

end Link

/-- A kernel with its data at `0x80108000`. -/
def smallLink : Link where
  data := 0x80108000
  first := 0x115
  aligned := by decide
  link_lt := by decide
  lt_top := by decide
  lt_first := by decide

/-- The `n` frames from frame `s` on. -/
def framesFrom (s n : ℕ) : List Frame := (range' s n).map (Fin.ofNat nPage)

section

variable {s n : ℕ} (hn : s + n ≤ 0xE000)

include hn

theorem nodup_framesFrom : (framesFrom s n).Nodup := by
  refine (nodup_range' 1).map_on fun i hi j hj hij => ?_
  rw [mem_range'_1] at hi hj
  have hval := congrArg Fin.val hij
  rw [Fin.val_ofNat, Fin.val_ofNat, nPage_eq] at hval
  omega

theorem framesFrom_inRange (hs : 0x115 ≤ s) :
    InRange smallLink.layout ⟨_, Multiset.coe_nodup.mpr (nodup_framesFrom hn)⟩ := by
  intro f hf
  obtain ⟨i, hi, rfl⟩ := mem_map.mp (Multiset.mem_coe.mp hf)
  have hlayout : smallLink.layout.first = 0x115 ∧ smallLink.layout.phystop = 0xE000 := ⟨rfl, rfl⟩
  rw [mem_range'_1] at hi
  rw [Layout.Allocatable, Fin.val_ofNat, nPage_eq]
  omega

end

/-- There are enough frames: a directory is returned. -/
theorem setupkvmAt_exact_smallLink : ∃ d m', setupkvmAt smallLink.layout smallLink.data nPage
    ⟨framesFrom 0x1000 1025, fun _ => false, 0, false, false, fun _ _ => 0⟩ =
      .ok (some (some d), m') ∧
    (∀ va, d.translate va = prescribed (kmap smallLink.data) va) ∧
    ∀ va : Word, va.toNat < kernBase → d.translate va = none := by
  have hn : 0x1000 + 1025 ≤ 0xE000 := by decide
  obtain ⟨m, hm⟩ : ∃ m : Mem,
      m = ⟨framesFrom 0x1000 1025, fun _ => false, 0, false, false, fun _ _ => 0⟩ := ⟨_, rfl⟩
  rw [← hm]
  have hcons : Conserved ⟨_, Multiset.coe_nodup.mpr (nodup_framesFrom hn)⟩ 0 m := by
    rw [hm]
    exact ⟨add_zero _, rfl⟩
  obtain ⟨r, m', hrun, hdir, -⟩ :=
    smallLink.setupkvmAt_exact (framesFrom_inRange hn (by decide)) hcons le_rfl
  have hsome : Wp (fun _ => True) (setupkvmAt smallLink.layout smallLink.data nPage)
      (fun r _ => ∃ d, r = some (some d)) m := by
    rw [smallLink.setupkvmAt_eq le_rfl, map_eq_pure_bind, wp_bind]
    refine (wp_setupkvm_stocked (k := 0) (by simp [hm]) ?_).mono fun r m' hr => ?_
    · simp [hm, framesFrom, nEntries_eq]
    · obtain ⟨d, rfl, -⟩ := hr
      exact ⟨d, rfl⟩
  obtain ⟨d, hd⟩ := hsome.of_ok hrun
  obtain rfl := Option.some.inj hd
  exact ⟨d, m', hrun, (hdir d rfl).2⟩

end Dave.Memory
