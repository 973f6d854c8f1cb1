import Dave.Lib.Prog
import Dave.Lib.Sums
import Dave.Memory.Paging
import Mathlib.Algebra.BigOperators.Fin
import Mathlib.Data.Multiset.Count

/-!
# Where the frames are

The frames of an address space are those of its page directory, its page tables and its user pages.
Frames are conserved: the free frames and the frames that somebody owns are together the frames of
the pool, each of them once. Every function of `vm.c` keeps this, when the frames it takes in and
the frames it returns are counted as owned.
-/

namespace Dave.Memory

open PageDir Function Multiset Option

/-! ### The frames of an address space -/

/-- The frame of a present entry. -/
def Pte.frames (e : Pte) : Multiset Frame := if e.present then {e.frame} else 0

/-- The frames mapped by a page table. -/
def PageTable.mapped (t : PageTable) : Multiset Frame := ∑ j, (t.pte j).frames

/-- The frames of a page table at entry `i` of the directory: its own, and in the user part those
it maps. -/
def tableFrames (i : Fin nEntries) : Option PageTable → Multiset Frame
  | none => 0
  | some t => {t.frame} + if i.val < 512 then t.mapped else 0

def PageDir.frames (d : PageDir) : Multiset Frame := {d.frame} + ∑ i, tableFrames i (d.table i)

theorem PageDir.frame_mem_frames (d : PageDir) : d.frame ∈ d.frames := by
  rw [frames]
  generalize (∑ i, tableFrames i (d.table i)) = T
  simp

/-- The frames that entry `e` adds to an address space as the entry of page `i`. -/
def entryFrames (i : ℕ) (e : Pte) : Multiset Frame := if i < kernPage then e.frames else 0

theorem pdx_lt_iff {i : ℕ} (hi : i < nPage) : (pdx i).val < 512 ↔ i < kernPage := by
  rw [nPage_eq] at hi
  rw [pdx_val, show kernPage = 524288 from rfl]
  omega

theorem lt_nPage {i : ℕ} (hi : i < kernPage) : i < nPage := by
  rw [nPage_eq]
  exact hi.trans (by decide)

theorem Pte.frames_zero : Pte.zero.frames = 0 := rfl

theorem PageTable.mapped_update (t : PageTable) (j : Fin nEntries) (e : Pte) :
    ({ t with pte := update t.pte j e } : PageTable).mapped + (t.pte j).frames =
      t.mapped + e.frames := by
  have h := sum_update_add (fun _ => Pte.frames) t.pte j e
  unfold PageTable.mapped
  exact h

theorem tableFrames_update {i : ℕ} (hi : i < nPage) (t : PageTable) (e : Pte) :
    tableFrames (pdx i) (some { t with pte := update t.pte (ptx i) e }) +
      entryFrames i (t.pte (ptx i)) = tableFrames (pdx i) (some t) + entryFrames i e := by
  simp only [tableFrames, pdx_lt_iff hi, entryFrames]
  split_ifs with hk
  · rw [add_assoc, t.mapped_update, add_assoc]
  · rfl

namespace PageDir

variable (d : PageDir) {i : ℕ}

theorem frames_setTable (f : Frame) (hnone : d.table (pdx i) = none) :
    (d.setTable i f).frames = {f} + d.frames := by
  have h := sum_update_add tableFrames d.table (pdx i) (some ⟨f, fun _ => .zero⟩)
  have hmapped : (⟨f, fun _ => .zero⟩ : PageTable).mapped = 0 :=
    Finset.sum_eq_zero fun _ _ => Pte.frames_zero
  rw [hnone, tableFrames, tableFrames, hmapped, ite_self, add_zero, add_zero] at h
  rw [frames, frames, setTable, h]
  abel

theorem frames_setPte (hi : i < nPage) {e₀ : Pte} (he₀ : d.pte i = some e₀) (e : Pte) :
    (d.setPte i e).frames + entryFrames i e₀ = d.frames + entryFrames i e := by
  obtain ⟨t, ht, rfl⟩ := map_eq_some_iff.mp he₀
  have hsum := sum_update_add tableFrames d.table (pdx i)
    (some { t with pte := update t.pte (ptx i) e })
  have htable := tableFrames_update hi t e
  rw [ht] at hsum
  rw [frames, frames, setPte, ht, map_some]
  refine add_right_cancel (b := tableFrames (pdx i) (some t)) ?_
  calc _ = {d.frame} + (∑ j, tableFrames j (update d.table (pdx i)
        (some { t with pte := update t.pte (ptx i) e }) j) +
          tableFrames (pdx i) (some t)) + entryFrames i (t.pte (ptx i)) := by abel
    _ = {d.frame} + ∑ j, tableFrames j (d.table j) +
        (tableFrames (pdx i) (some { t with pte := update t.pte (ptx i) e }) +
          entryFrames i (t.pte (ptx i))) := by rw [hsum]; abel
    _ = _ := by rw [htable]; abel

end PageDir

/-! ### Conservation -/

/-- The free frames and the frames `X` are together the frames of the pool, each once, and no frame
has been freed twice. -/
structure Conserved (pool : Finset Frame) (X : Multiset Frame) (m : Mem) : Prop where
  eq : (m.freelist : Multiset Frame) + X = pool.val
  refreed : m.refreed = false

/-- The panics that do not come from a wrong count of frames or files. -/
abbrev Fine (e : Panic) : Prop :=
  e ≠ .kfree ∧ e ≠ .filedup ∧ e ≠ .fileclose ∧ e ≠ .freedPipe

/-- The frames of `X` have the contents they had. -/
def Kept (X : Multiset Frame) (m m' : Mem) : Prop := ∀ f ∈ X, m'.ram f = m.ram f

section Specs

variable {L : Layout} {pool : Finset Frame} {X Y : Multiset Frame} {m m' m'' : Mem} {d : PageDir}
  {i : ℕ}

variable {f : Frame}

section

variable (h : Conserved pool X m)

include h

theorem Conserved.congr (hXY : X = Y) : Conserved pool Y m := hXY ▸ h

theorem Conserved.setRam (r : Phys) :
    Conserved pool X { m with ram := r } := ⟨h.eq, h.refreed⟩

theorem Conserved.mem_pool (hf : f ∈ X) : f ∈ pool := by
  rw [← Finset.mem_val, ← h.eq]
  exact mem_add.mpr (.inr hf)

theorem Conserved.nodup_add :
    ((m.freelist : Multiset Frame) + X).Nodup := h.eq ▸ pool.nodup

theorem Conserved.nodup : m.freelist.Nodup :=
  Multiset.coe_nodup.mp (Multiset.nodup_add.mp h.nodup_add).1

theorem Conserved.disjoint (hf : f ∈ X) : f ∉ m.freelist := fun hmem =>
  Multiset.disjoint_left.mp (Multiset.nodup_add.mp h.nodup_add).2.2 (Multiset.mem_coe.mpr hmem) hf

end

theorem Conserved.notMem (h : Conserved pool (f ::ₘ X) m) : f ∈ pool ∧ f ∉ m.freelist :=
  ⟨h.mem_pool (mem_cons_self f X), h.disjoint (mem_cons_self f X)⟩

theorem Conserved.notMem_rest (h : Conserved pool (f ::ₘ X) m) : f ∉ X := by
  exact (Multiset.nodup_cons.mp (Multiset.nodup_add.mp h.nodup_add).2.1).1

theorem Kept.of_eq (h : m'.ram = m.ram) : Kept X m m' := fun f _ => congrFun h f

theorem Kept.trans (h : Kept X m m') (h' : Kept X m' m'') : Kept X m m'' := fun f hf =>
  (h' f hf).trans (h f hf)

theorem Kept.of_add (h : Kept (Y + X) m m') : Kept X m m' := fun f hf =>
  h f (mem_add.mpr (.inr hf))

theorem Kept.setRam (h : Conserved pool (f ::ₘ X) m) (hram : m'.ram = m.ram) (p : ℕ → Byte) :
    Kept X m { m' with ram := update m'.ram f p } := fun g hg => by
  have hne : g ≠ f := fun hgf => h.notMem_rest (hgf ▸ hg)
  exact (update_of_ne hne ..).trans (congrFun hram g)

variable {E : Panic → Prop}

/-- A frame moves from the free list to its owner, or the call fails. -/
theorem wp_kalloc {Q : Option Frame → Mem → Prop} (h : Conserved pool X m)
    (hnone : ∀ m', Conserved pool X m' → m'.failed = true → m'.ram = m.ram → Q none m')
    (hsome : ∀ f m', Conserved pool (f ::ₘ X) m' → m'.failed = m.failed → m'.ram = m.ram →
      Q (some f) m') : Wp E kalloc Q m := by
  simp only [kalloc, wp_bind, wp_get]
  split
  · next f rest _ hlist =>
    refine hsome f _ ⟨?_, h.refreed⟩ rfl rfl
    rw [← h.eq, hlist, ← cons_coe, cons_add, add_cons]
  · exact hnone _ ⟨h.eq, h.refreed⟩ rfl rfl

/-- The frame is one that `kfree` accepts. -/
def Layout.Allocatable (L : Layout) (f : Frame) : Prop := L.first ≤ f.val ∧ f.val < L.phystop

theorem Layout.Allocatable.not_outside (h : L.Allocatable f) :
    ¬ (f.val < L.first ∨ L.phystop ≤ f.val) :=
  not_or.mpr ⟨Nat.not_lt.mpr h.1, Nat.not_le.mpr h.2⟩

/-- The frames of the pool are ones that `kfree` accepts. -/
def InRange (L : Layout) (pool : Finset Frame) : Prop := ∀ f ∈ pool, L.Allocatable f

/-- A frame that is owned goes back to the free list. -/
theorem wp_kfree (hpool : InRange L pool) (h : Conserved pool (f ::ₘ X) m) :
    Wp E (kfree L f) (fun _ m' => Conserved pool X m' ∧ Kept X m m') m := by
  obtain ⟨hmem, hfree⟩ := h.notMem
  simp only [kfree, if_neg (hpool f hmem).not_outside]
  refine ⟨⟨?_, ?_⟩, Kept.setRam h rfl _⟩
  · rw [← h.eq, ← cons_coe, cons_add, add_cons]
  · simp only [h.refreed, hfree, decide_false, Bool.or_false]

/-! ### Mapping pages -/

/-- The frame of a new page table is one of the directory afterwards. -/
theorem wp_walkpgdir (h : Conserved pool (d.frames + X) m) : Wp E (walkpgdir d i) (fun r m' =>
      m'.ram = m.ram ∧ match r with
      | none => Conserved pool (d.frames + X) m' ∧ m'.failed = true
      | some d' => Conserved pool (d'.frames + X) m' ∧ ∃ e, d'.pte i = some e) m := by
  unfold walkpgdir
  split
  · next t ht => exact ⟨rfl, h, t.pte (ptx i), by rw [pte, ht]; rfl⟩
  · next ht =>
    rw [wp_bind]
    refine wp_kalloc h (fun m' hm' hfail hram => ⟨hram, hm', hfail⟩) fun f m' hm' _ hram => ?_
    refine ⟨hram, hm'.congr ?_, .zero, ?_⟩
    · rw [d.frames_setTable f ht, ← singleton_add, add_assoc]
    · simp [pte, setTable]

variable {pa n : ℕ} {perm : Perm}

/-- One round of the loop: the frame of the page becomes one of the directory. -/
theorem wp_mappages_succ (hE : E .remap) (hi : i < nPage)
    {Q : Bool × PageDir → Mem → Prop}
    (h : Conserved pool (d.frames +
      (entryFrames i ⟨perm, Fin.ofNat nPage pa, true⟩ + X)) m)
    (hfail : ∀ m', Conserved pool (d.frames +
      (entryFrames i ⟨perm, Fin.ofNat nPage pa, true⟩ + X)) m' → m'.failed = true →
        m'.ram = m.ram → Q (false, d) m')
    (hnext : ∀ d' m', Conserved pool (d'.frames + X) m' → m'.ram = m.ram →
      Wp E (mappages d' (i + 1) (pa + 1) perm n) Q m') :
    Wp E (mappages d i pa perm (n + 1)) Q m := by
  rw [mappages, wp_bind]
  refine (wp_walkpgdir h).mono fun r m' hr => ?_
  obtain ⟨hram, hr⟩ := hr
  cases r with
  | none => exact hfail m' hr.1 hr.2 hram
  | some d' =>
    obtain ⟨hcons, e₀, he₀⟩ := hr
    simp only [he₀, any_some, wp_bind, wp_ite, wp_throw]
    split_ifs with hp
    · exact hE
    · refine hnext _ m' (hcons.congr ?_) hram
      have hzero : entryFrames i e₀ = 0 := by
        unfold entryFrames Pte.frames
        split_ifs <;> simp_all
      have hset := d'.frames_setPte hi he₀ ⟨perm, Fin.ofNat nPage pa, true⟩
      rw [hzero, add_zero] at hset
      rw [hset, add_assoc]

/-- Pages of the kernel are mapped, whose frames nobody owns. -/
theorem wp_mappages_kern (hE : E .remap) (hk : kernPage ≤ i) (hi : i + n ≤ nPage)
    (h : Conserved pool (d.frames + X) m) :
    Wp E (mappages d i pa perm n)
      (fun r m' => Conserved pool (r.2.frames + X) m' ∧ m'.ram = m.ram) m := by
  induction n generalizing d i pa m with
  | zero => exact ⟨h, rfl⟩
  | succ n ih =>
    have hzero : entryFrames i ⟨perm, Fin.ofNat nPage pa, true⟩ = 0 :=
      if_neg (by omega)
    rw [← zero_add X, ← hzero] at h
    refine wp_mappages_succ hE (by omega) h (fun m' hm' _ hram => ?_) fun d' m' hm' hram => ?_
    · rw [hzero, zero_add] at hm'
      exact ⟨hm', hram⟩
    · exact (ih (by omega) (by omega) hm').mono fun _ _ h => ⟨h.1, h.2.trans hram⟩

/-- A frame that the caller owns is mapped as a user page. -/
theorem wp_mappages_user (hE : E .remap) (hi : i < kernPage)
    (h : Conserved pool (d.frames + ({f} + X)) m) :
    Wp E (mappages d i f.val perm 1) (fun r m' => m'.ram = m.ram ∧
      if r.1 then Conserved pool (r.2.frames + X) m'
      else Conserved pool (r.2.frames + ({f} + X)) m' ∧ m'.failed = true) m := by
  have hi' : i < nPage := lt_nPage hi
  have hentry : entryFrames i ⟨perm, Fin.ofNat nPage f.val, true⟩ = {f} := by
    rw [entryFrames, if_pos hi, Pte.frames, if_pos rfl, Fin.ofNat_val_eq_self]
  rw [← hentry] at h ⊢
  exact wp_mappages_succ hE hi' h (fun m' hm' hf hram => ⟨hram, hm', hf⟩)
    fun d' m' hm' hram => ⟨hram, hm'⟩

/-! ### Freeing pages -/

def PageDir.Present (d : PageDir) (i : ℕ) : Prop := (d.pte i).any (·.present) = true

theorem PageDir.pte_setPte_self {e₀ : Pte} (h : d.pte i = some e₀) (e : Pte) :
    (d.setPte i e).pte i = some e := by
  obtain ⟨t, ht, -⟩ := map_eq_some_iff.mp h
  simp [pte, setPte, ht]

theorem PageDir.pte_setPte_of_ne {j : ℕ} (hi : i < nPage) (hj : j < nPage) (hji : j ≠ i) (e : Pte) :
    (d.setPte i e).pte j = d.pte j := by
  unfold pte setPte
  by_cases hd : pdx j = pdx i
  · have ht : ptx j ≠ ptx i := by
      intro ht
      have h1 := congrArg Fin.val hd
      have h2 := congrArg Fin.val ht
      rw [pdx_val, pdx_val] at h1
      rw [ptx_val, ptx_val] at h2
      rw [nPage_eq] at hi hj
      omega
    rw [hd]
    simp [comp_def, update_of_ne ht]
  · simp [update_of_ne hd]

theorem pdx_eq_of_lt {j : ℕ} (hij : i ≤ j) (hj : j < (i / nEntries + 1) * nEntries) :
    pdx j = pdx i := by
  have hdiv : j / nEntries = i / nEntries :=
    Nat.div_eq_of_lt_le ((Nat.div_mul_le_self _ _).trans hij) hj
  rw [pdx, pdx, hdiv]

/-- The loop of `deallocuvm` gives up the frames of the pages it passes; `lo` is where the loop
began. -/
theorem wp_deallocLoop (hpool : InRange L pool) {stop lo : ℕ} (hn : stop ≤ i + n)
    (hstop : stop ≤ kernPage) (h : Conserved pool (d.frames + X) m)
    (hclear : ∀ j, lo ≤ j → j < i → j < stop → ¬ d.Present j) :
    Wp E (deallocLoop L stop d i n) (fun d' m' =>
      (Conserved pool (d'.frames + X) m' ∧ Kept X m m') ∧
      ∀ j, lo ≤ j → j < stop → ¬ d'.Present j) m := by
  induction n generalizing d i m with
  | zero => exact ⟨⟨h, .of_eq rfl⟩, fun j hlo hj => hclear j hlo (by omega) hj⟩
  | succ n ih =>
    unfold deallocLoop
    split_ifs with hend
    · exact ⟨⟨h, .of_eq rfl⟩, fun j hlo hj => hclear j hlo (by omega) hj⟩
    have hik : i < kernPage := by omega
    have hi : i < nPage := lt_nPage hik
    -- the pages before `i'` are clear if those between `i` and `i'` are
    have hmore {d' : PageDir} {i' : ℕ} (hold : ∀ j, lo ≤ j → j < i → j < stop → ¬ d'.Present j)
        (hnew : ∀ j, i ≤ j → j < i' → j < stop → ¬ d'.Present j) :
        ∀ j, lo ≤ j → j < i' → j < stop → ¬ d'.Present j := fun j hlo hj hs => by
      by_cases hji : j < i
      · exact hold j hlo hji hs
      · exact hnew j (by omega) hj hs
    cases hp : d.pte i with
    | none =>
      have hnext : i < (i / nEntries + 1) * nEntries := by
        have := Nat.div_add_mod i nEntries
        have := Nat.mod_lt i (Nat.pos_of_neZero nEntries)
        rw [Nat.add_mul, one_mul, mul_comm]
        omega
      refine ih (by omega) h (hmore hclear fun j hij hj _ => ?_)
      have hnone : d.pte j = none := by
        rw [pte, map_eq_none_iff] at hp ⊢
        rwa [pdx_eq_of_lt hij hj]
      simp [PageDir.Present, hnone]
    | some e =>
      by_cases he : e.present = true
      · -- the frame of the page is given up and then freed
        have hframes : d.frames = {e.frame} + (d.setPte i .zero).frames := by
          have hset := d.frames_setPte hi hp .zero
          have hz : entryFrames i .zero = 0 := by
            rw [entryFrames, Pte.frames_zero, ite_self]
          have he' : entryFrames i e = {e.frame} := by
            rw [entryFrames, if_pos hik, Pte.frames, if_pos he]
          rw [hz, he', add_zero] at hset
          rw [← hset, add_comm]
        have hcons : Conserved pool (e.frame ::ₘ ((d.setPte i .zero).frames + X)) m :=
          h.congr (by rw [hframes, add_assoc, singleton_add])
        have hne : e.frame ≠ 0 := by
          intro hzero
          have := (hpool _ hcons.notMem.1).1
          have := L.pos
          simp_all
        simp only [if_pos he, if_neg hne, wp_bind]
        refine (wp_kfree hpool hcons).mono fun _ m' hm' => ?_
        refine (ih (by omega) hm'.1 (hmore (fun j hlo hj hs => ?_) fun j hij hj _ => ?_)).mono
          fun _ _ h => ⟨⟨h.1.1, hm'.2.of_add.trans h.1.2⟩, h.2⟩
        · rw [PageDir.Present, pte_setPte_of_ne hi (by omega) (by omega)]
          exact hclear j hlo hj hs
        · obtain rfl : j = i := by omega
          simp [PageDir.Present, pte_setPte_self hp, Pte.zero]
      · simp only [if_neg he]
        refine ih (by omega) h (hmore hclear fun j hij hj _ => ?_)
        obtain rfl : j = i := by omega
        simpa [PageDir.Present, hp] using he

theorem pages_kernBase : pages kernBase = kernPage := by
  norm_num [pages]

theorem pages_le_kernPage {size : ℕ} (h : size ≤ kernBase) : pages size ≤ kernPage := by
  have h' : size ≤ 2147483648 := h
  change (size + 4095) / 4096 ≤ 524288
  omega

variable {oldsz newsz : ℕ}

/-- The frames of the pages that are given up go back to the free list. -/
theorem wp_deallocuvm (hpool : InRange L pool) (hold : oldsz ≤ kernBase)
    (h : Conserved pool (d.frames + X) m) :
    Wp E (deallocuvm L d oldsz newsz) (fun r m' =>
      (Conserved pool (r.2.frames + X) m' ∧ Kept X m m') ∧
      (newsz < oldsz → ∀ j, pages newsz ≤ j → j < pages oldsz → ¬ r.2.Present j) ∧
      r.1 ≤ oldsz) m := by
  unfold deallocuvm
  split_ifs with hsz
  · exact ⟨⟨h, .of_eq rfl⟩, fun hlt => by omega, le_rfl⟩
  · simp only [wp_bind]
    refine (wp_deallocLoop hpool (by omega) (pages_le_kernPage hold) h
      fun j hlo hj _ => by omega).mono fun d' m' hm' => ⟨hm'.1, fun _ => hm'.2, by omega⟩

theorem PageDir.frames_of_clear (h : ∀ j, j < kernPage → ¬ d.Present j) :
    d.frames = {d.frame} + ∑ i, (d.table i).elim 0 fun t => {t.frame} := by
  suffices hsum : ∑ i, tableFrames i (d.table i) = ∑ i, (d.table i).elim 0 fun t => {t.frame} by
    rw [frames, hsum]
  refine Finset.sum_congr rfl fun i _ => ?_
  cases ht : d.table i with
  | none => rfl
  | some t =>
    rw [tableFrames, elim_some]
    split_ifs with hi
    · have hmapped : t.mapped = 0 := by
        refine Finset.sum_eq_zero fun j _ => ?_
        have hj : j.val < 1024 := nEntries_eq ▸ j.isLt
        have hk : i.val * 1024 + j.val < kernPage := by
          change i.val * 1024 + j.val < 524288
          omega
        have hpd : pdx (i.val * 1024 + j.val) = i := by
          rw [Fin.ext_iff, pdx_val]
          omega
        have hpt : ptx (i.val * 1024 + j.val) = j := by
          rw [Fin.ext_iff, ptx_val]
          omega
        have hnot := h _ hk
        rw [PageDir.Present, pte, hpd, hpt, ht] at hnot
        rw [Pte.frames, if_neg (by simpa using hnot)]
      rw [hmapped, add_zero]
    · rw [add_zero]

theorem wp_freeTables (hpool : InRange L pool) {l : List (Fin nEntries)} (hl : l.Nodup)
    (h : Conserved pool (∑ i ∈ l.toFinset, ((d.table i).elim 0 fun t => {t.frame}) + X) m) :
    Wp E (l.forM fun i => freeTable L (d.table i))
      (fun _ m' => Conserved pool X m' ∧ Kept X m m') m := by
  induction l generalizing m with
  | nil => exact ⟨h.congr (by simp), .of_eq rfl⟩
  | cons i l ih =>
    obtain ⟨hi, hl⟩ := List.nodup_cons.mp hl
    rw [List.toFinset_cons, Finset.sum_insert (by simpa using hi), add_assoc] at h
    change Wp E (freeTable L (d.table i) >>= fun _ => l.forM _) _ m
    rw [wp_bind]
    cases ht : d.table i with
    | none =>
      rw [ht, elim_none, zero_add] at h
      exact ih hl h
    | some t =>
      rw [ht, elim_some, singleton_add] at h
      refine (wp_kfree hpool h).mono fun _ m₁ hm₁ => ?_
      exact (ih hl hm₁.1).mono fun _ m₂ hm₂ => ⟨hm₂.1, hm₁.2.of_add.trans hm₂.2⟩

/-- All frames of an address space go back to the free list. -/
theorem wp_freevm (hpool : InRange L pool) (h : Conserved pool (d.frames + X) m) :
    Wp E (freevm L d) (fun _ m' => Conserved pool X m' ∧ Kept X m m') m := by
  have hdealloc : Wp E (deallocuvm L d kernBase 0) _ m :=
    wp_deallocuvm hpool (Nat.le_refl kernBase) h
  rw [freevm, wp_bind]
  refine hdealloc.mono fun r m₁ hm₁ => ?_
  obtain ⟨⟨hcons, hkept⟩, hclear, -⟩ := hm₁
  have hall : ∀ j, j < kernPage → ¬ r.2.Present j := fun j hj =>
    hclear (by norm_num) j (Nat.zero_le _) (by rwa [pages_kernBase])
  rw [frames_of_clear hall, ← List.toFinset_finRange, add_comm {r.2.frame}, add_assoc] at hcons
  rw [wp_bind]
  have hnodup : (List.finRange nEntries).Nodup := List.nodup_finRange _
  generalize List.finRange nEntries = l at hcons hnodup ⊢
  refine (wp_freeTables hpool hnodup hcons).mono fun _ m₂ hm₂ => ?_
  exact (wp_kfree hpool hm₂.1).mono fun _ m₃ hm₃ =>
    ⟨hm₃.1, hkept.trans (hm₂.2.of_add.trans hm₃.2)⟩

/-! ### Making address spaces -/

variable (hpool : InRange L pool)

include hpool

theorem wp_freevm_none {m₀ : Mem} (h : Conserved pool (d.frames + X) m) (hkept : Kept X m₀ m) :
    Wp E (do freevm L d; return none) (fun r m' =>
      Conserved pool (r.elim 0 frames + X) m' ∧ Kept X m₀ m') m := by
  rw [wp_bind]
  exact (wp_freevm hpool h).mono fun _ m' hm' =>
    ⟨hm'.1.congr (zero_add X).symm, hkept.trans hm'.2⟩

theorem wp_kmapLoop {ks : List Kmap} (hks : ∀ k ∈ ks, k ∈ L.kmap)
    (h : Conserved pool (d.frames + X) m) :
    Wp Fine (kmapLoop L d ks) (fun r m' =>
      Conserved pool (r.elim 0 frames + X) m' ∧ Kept X m m') m := by
  induction ks generalizing d m with
  | nil => exact ⟨h, .of_eq rfl⟩
  | cons k ks ih =>
    obtain ⟨hkern, htop⟩ := L.kern k (hks k (List.mem_cons_self ..))
    rw [kmapLoop, wp_bind]
    refine (wp_mappages_kern (by decide) hkern htop h).mono fun r m₁ hm₁ => ?_
    obtain ⟨b, d'⟩ := r
    obtain ⟨hcons, hram⟩ := hm₁
    cases b with
    | false => exact wp_freevm_none hpool hcons (.of_eq hram)
    | true =>
      exact (ih (fun k hk => hks k (List.mem_cons_of_mem _ hk)) hcons).mono fun _ m₂ hm₂ =>
        ⟨hm₂.1, (Kept.of_eq hram).trans hm₂.2⟩

/-- The directory owns the frames it is built from; none is lost when the call fails. -/
theorem wp_setupkvm (h : Conserved pool X m) :
    Wp Fine (setupkvm L) (fun r m' =>
      Conserved pool (r.elim 0 frames + X) m' ∧ Kept X m m') m := by
  simp only [setupkvm, wp_bind]
  refine wp_kalloc h (fun m₁ hm₁ _ hram => ?_) fun f m₁ hm₁ _ hram => ?_
  · exact ⟨hm₁.congr (zero_add X).symm, .of_eq hram⟩
  · have hframes : frames ⟨f, fun _ => none⟩ = {f} := by
      simp [frames, tableFrames]
    simp only [wp_bind, wp_ite, wp_throw]
    split_ifs with htop
    · decide
    · refine (wp_kmapLoop hpool (fun _ => id) (hm₁.congr ?_)).mono fun _ m₂ hm₂ =>
        ⟨hm₂.1, (Kept.of_eq hram).trans hm₂.2⟩
      rw [hframes, singleton_add]

theorem wp_allocLoop (hnew : newsz ≤ kernBase) (hi : i + n ≤ kernPage)
    (h : Conserved pool (d.frames + X) m) :
    Wp Fine (allocLoop L oldsz newsz d i n) (fun r m' =>
      Conserved pool (r.2.frames + X) m' ∧ r.1 ≤ newsz) m := by
  induction n generalizing d i m with
  | zero => exact ⟨h, le_rfl⟩
  | succ n ih =>
    simp only [allocLoop, wp_bind]
    refine wp_kalloc h (fun m' hm' _ _ => ?_) fun f m' hm' _ _ => ?_
    · simp only [wp_bind]
      exact (wp_deallocuvm hpool hnew hm').mono fun r m'' hm'' => ⟨hm''.1.1, Nat.zero_le _⟩
    · have hm'' : Conserved pool (d.frames + ({f} + X)) m' :=
        hm'.congr (by rw [← singleton_add, add_left_comm])
      simp only [wp_bind, memset, wp_modify]
      refine (wp_mappages_user (by decide) (by omega) (hm''.setRam _)).mono fun r m₁ hr => ?_
      obtain ⟨b, d'⟩ := r
      obtain ⟨-, hm₁⟩ := hr
      cases b with
      | false =>
        simp only [wp_bind]
        refine (wp_deallocuvm hpool hnew hm₁.1).mono fun r m₂ hm₂ => ?_
        refine (wp_kfree hpool (hm₂.1.1.congr ?_)).mono fun _ m₃ hm₃ => ⟨hm₃.1, Nat.zero_le _⟩
        rw [add_left_comm, singleton_add]
      | true => exact ih (by omega) hm₁

/-- The new pages belong to the directory, whether the call succeeds or not. -/
theorem wp_allocuvm (hold : oldsz ≤ kernBase) (h : Conserved pool (d.frames + X) m) :
    Wp Fine (allocuvm L d oldsz newsz) (fun r m' =>
      Conserved pool (r.2.frames + X) m' ∧ r.1 ≤ kernBase) m := by
  unfold allocuvm
  split_ifs with hkern hlt
  · exact ⟨h, Nat.zero_le _⟩
  · exact ⟨h, hold⟩
  · have hle : newsz ≤ kernBase := by omega
    have hpages : pages oldsz ≤ pages newsz := Nat.div_le_div_right (by omega)
    have := pages_le_kernPage hle
    exact (wp_allocLoop hpool hle (by omega) h).mono fun r m' hm' => ⟨hm'.1, hm'.2.trans hle⟩

theorem wp_copyLoop {src : PageDir} (hi : i + n ≤ kernPage) (h : Conserved pool (d.frames + X) m) :
    Wp Fine (copyLoop L src d i n) (fun r m' =>
      Conserved pool (r.elim 0 frames + X) m' ∧ Kept X m m') m := by
  induction n generalizing d i m with
  | zero => exact ⟨h, .of_eq rfl⟩
  | succ n ih =>
    unfold copyLoop
    cases src.pte i with
    | none =>
      simp only [wp_throw]
      decide
    | some e =>
      simp only [wp_bind, wp_ite, wp_throw]
      split_ifs with hp
      · decide
      refine wp_kalloc h (fun m₁ hm₁ _ hram => wp_freevm_none hpool hm₁ (.of_eq hram))
        fun f m₁ hm₁ _ hram => ?_
      have hm₁' : Conserved pool (d.frames + ({f} + X)) m₁ :=
        hm₁.congr (by rw [← singleton_add, add_left_comm])
      simp only [wp_bind, memmove, wp_modify]
      -- the copy is written to a frame that is not one of `X`
      have hcopy : Kept X m { m₁ with ram := update m₁.ram f (m₁.ram e.frame) } :=
        (Kept.of_eq hram).trans (Kept.setRam hm₁ rfl _).of_add
      refine (wp_mappages_user (by decide) (by omega) (hm₁'.setRam _)).mono fun r m₂ hm₂ => ?_
      obtain ⟨b, d'⟩ := r
      obtain ⟨hram₂, hcons⟩ := hm₂
      have hkept : Kept X m m₂ := hcopy.trans (.of_eq hram₂)
      cases b with
      | false =>
        rw [wp_bind]
        have hmem : Conserved pool (f ::ₘ (d'.frames + X)) m₂ :=
          hcons.1.congr (by rw [add_left_comm, singleton_add])
        refine (wp_kfree hpool hmem).mono fun _ m₃ hm₃ => ?_
        exact wp_freevm_none hpool hm₃.1 (hkept.trans hm₃.2.of_add)
      | true => exact (ih (by omega) hcons).mono fun _ m₃ hm₃ => ⟨hm₃.1, hkept.trans hm₃.2⟩

/-- The copy owns the frames that have been taken; none is lost when the call fails. -/
theorem wp_copyuvm {src : PageDir} {sz : ℕ} (hsz : sz ≤ kernBase) (h : Conserved pool X m) :
    Wp Fine (copyuvm L src sz) (fun r m' =>
      Conserved pool (r.elim 0 frames + X) m' ∧ Kept X m m') m := by
  simp only [copyuvm, wp_bind]
  refine (wp_setupkvm hpool h).mono fun r m₁ hm₁ => ?_
  cases r with
  | none => exact hm₁
  | some d =>
    exact (wp_copyLoop hpool (by simpa using pages_le_kernPage hsz) hm₁.1).mono fun _ m₂ hm₂ =>
      ⟨hm₂.1, hm₁.2.trans hm₂.2⟩

end Specs

/-! ### The pages of the user part -/

section Pages

variable {d : PageDir} {i j : ℕ} {e e' : Pte}

theorem Pte.mem_frames (he : e.present = true) : e.frame ∈ e.frames := by
  simp [Pte.frames, he]

theorem PageTable.mem_tableFrames {t : PageTable} (hi : i < kernPage)
    (hp : (t.pte (ptx i)).present = true) :
    (t.pte (ptx i)).frame ∈ tableFrames (pdx i) (some t) := by
  have hmem : (t.pte (ptx i)).frame ∈ t.mapped := by
    rw [PageTable.mapped]
    exact mem_sum_of_mem (ptx i) (Pte.mem_frames hp)
  rw [tableFrames, if_pos ((pdx_lt_iff (lt_nPage hi)).mpr hi), mem_add]
  exact .inr hmem

theorem PageDir.mem_frames (hi : i < kernPage) (he : d.pte i = some e) (hp : e.present = true) :
    e.frame ∈ d.frames := by
  obtain ⟨t, ht, rfl⟩ := map_eq_some_iff.mp he
  have hmem := PageTable.mem_tableFrames hi hp
  rw [← ht] at hmem
  rw [frames, mem_add]
  right
  exact mem_sum_of_mem (pdx i) hmem

theorem PageDir.pte_injective (hd : d.frames.Nodup) (hi : i < kernPage) (hj : j < kernPage)
    (he : d.pte i = some e) (hp : e.present = true) (he' : d.pte j = some e')
    (hp' : e'.present = true) (hframe : e.frame = e'.frame) : i = j := by
  obtain ⟨t, ht, rfl⟩ := map_eq_some_iff.mp he
  obtain ⟨t', ht', rfl⟩ := map_eq_some_iff.mp he'
  rw [frames] at hd
  have htables := (nodup_add.mp hd).2.1
  have hmem := PageTable.mem_tableFrames hi hp
  have hmem' := PageTable.mem_tableFrames hj hp'
  have hpdx : pdx i = pdx j := by
    rw [← ht] at hmem
    rw [← ht', ← hframe] at hmem'
    exact eq_of_nodup_sum htables hmem hmem'
  obtain rfl : t = t' := some.inj (ht.symm.trans (hpdx ▸ ht'))
  have hmapped : t.mapped.Nodup := by
    have htable := nodup_of_nodup_sum htables (pdx i)
    rw [ht, tableFrames, if_pos ((pdx_lt_iff (lt_nPage hi)).mpr hi)] at htable
    exact (nodup_add.mp htable).2.1
  have hptx : ptx i = ptx j := by
    rw [PageTable.mapped] at hmapped
    exact eq_of_nodup_sum hmapped (Pte.mem_frames hp) (hframe ▸ Pte.mem_frames hp')
  have h1 := congrArg Fin.val hpdx
  have h2 := congrArg Fin.val hptx
  rw [pdx_val, pdx_val] at h1
  rw [ptx_val, ptx_val] at h2
  have hk : kernPage = 524288 := rfl
  omega

end Pages

end Dave.Memory
