import Dave.Memory.Frames

/-!
# Growing and shrinking a process

`growproc` changes the size of a process. This file says which user pages are mapped afterwards. The
source takes the size 0 for a failure, and computes the new size as a `uint`; so a process that
shrinks to nothing is told that nothing has happened, and one that shrinks by more than it has keeps
its size but is told otherwise. In all other cases the call is exact or has no effect.
-/

namespace Dave.Memory

namespace PageDir

/-- The entry of page `i`, if the page is mapped. -/
def page (d : PageDir) (i : ℕ) : Option Pte := (d.pte i).filter (·.present)

/-- The first `n` pages of the user part are mapped, and no others. -/
def Maps (d : PageDir) (n : ℕ) : Prop := ∀ i < kernPage, (d.page i).isSome = true ↔ i < n

end PageDir

section Page

variable {d : PageDir} {i j : ℕ} {e : Pte}

theorem PageDir.page_of_pte (h : d.pte i = some e) :
    d.page i = if e.present then some e else none := by
  rw [PageDir.page, h, Option.filter_some]

theorem PageDir.page_of_none (h : d.pte i = none) : d.page i = none := by
  rw [PageDir.page, h, Option.filter_none]

theorem PageDir.page_setPte_self {e₀ : Pte} (h : d.pte i = some e₀) :
    (d.setPte i e).page i = if e.present then some e else none :=
  page_of_pte (pte_setPte_self h e)

theorem PageDir.page_setPte_of_ne (hi : i < nPage) (hj : j < nPage) (hji : j ≠ i) :
    (d.setPte i e).page j = d.page j := by
  rw [page, page, pte_setPte_of_ne hi hj hji]

theorem PageDir.page_setTable (hnone : d.table (pdx i) = none) (f : Frame) :
    (d.setTable i f).page j = d.page j := by
  by_cases hj : pdx j = pdx i
  · have hpte : d.pte j = none := by rw [pte, hj, hnone, Option.map_none]
    have hzero : (d.setTable i f).pte j = some .zero := by
      simp [pte, setTable, hj]
    rw [page_of_none hpte, page_of_pte hzero]
    rfl
  · simp [page, pte, setTable, hj]

end Page

/-! ### The allocator -/

/-- The free frames are frames of the allocator. -/
def FreeOk (L : Layout) (m : Mem) : Prop := ∀ f ∈ m.freelist, L.Allocatable f

/-- The free frames and those of the user pages are frames of the allocator. -/
structure Sound (L : Layout) (d : PageDir) (m : Mem) : Prop where
  free : FreeOk L m
  user : ∀ i < kernPage, ∀ e, d.page i = some e → L.Allocatable e.frame

section Specs

variable {L : Layout} {m : Mem} {d : PageDir} {i : ℕ} {E : Panic → Prop}

theorem FreeOk.setRam (h : FreeOk L m) (r : Phys) : FreeOk L { m with ram := r } := h

theorem wp_kalloc_free (h : FreeOk L m) :
    Wp E kalloc (fun r m' => FreeOk L m' ∧ ∀ f, r = some f → L.Allocatable f) m := by
  simp only [kalloc, wp_bind, wp_get]
  split
  · next f rest _ hlist =>
    refine ⟨fun f' hf' => h f' (hlist ▸ List.mem_cons_of_mem _ hf'), ?_⟩
    rintro _ ⟨⟩
    exact h f (hlist ▸ List.mem_cons_self ..)
  · exact ⟨h, by simp⟩

theorem wp_kfree_free {f : Frame} (hf : L.Allocatable f) (h : FreeOk L m) :
    Wp E (kfree L f) (fun _ m' => FreeOk L m') m := by
  simp only [kfree, if_neg hf.not_outside]
  intro f' hf'
  rcases List.mem_cons.mp hf' with rfl | hmem
  · exact hf
  · exact h f' hmem

/-- A new page table maps nothing. -/
theorem wp_walkpgdir_page (h : FreeOk L m) : Wp E (walkpgdir d i) (fun r m' => FreeOk L m' ∧
      ∀ d', r = some d' → (∃ e, d'.pte i = some e) ∧ ∀ j, d'.page j = d.page j) m := by
  unfold walkpgdir
  split
  · next t ht =>
    refine ⟨h, ?_⟩
    rintro _ ⟨⟩
    exact ⟨⟨t.pte (ptx i), by rw [PageDir.pte, ht, Option.map_some]⟩, fun _ => rfl⟩
  · next ht =>
    rw [wp_bind]
    refine (wp_kalloc_free h).mono fun r m' hm' => ?_
    cases r with
    | none => exact ⟨hm'.1, by simp⟩
    | some f =>
      refine ⟨hm'.1, ?_⟩
      rintro _ ⟨⟩
      refine ⟨⟨.zero, ?_⟩, fun j => PageDir.page_setTable ht f⟩
      simp [PageDir.pte, PageDir.setTable]

/-- One user page is mapped, or none. -/
theorem wp_mappages_page (hi : i < kernPage) (h : FreeOk L m) (hnone : d.page i = none)
    {f : Frame} :
    Wp E (mappages d i f.val ⟨true, true, 0⟩ 1) (fun r m' => FreeOk L m' ∧
      if r.1 then r.2.page i = some ⟨⟨true, true, 0⟩, f, true⟩ ∧
        ∀ j < kernPage, j ≠ i → r.2.page j = d.page j
      else ∀ j, r.2.page j = d.page j) m := by
  rw [mappages, wp_bind]
  refine (wp_walkpgdir_page h).mono fun r m' hm' => ?_
  cases r with
  | none => exact ⟨hm'.1, by simp⟩
  | some d' =>
    obtain ⟨⟨e, he⟩, hsame⟩ := hm'.2 d' rfl
    have habsent : e.present = false := by
      have hpage := hsame i
      rw [hnone, PageDir.page_of_pte he] at hpage
      simpa using hpage
    simp only [he, Option.any_some, habsent, Bool.false_eq_true, if_false, mappages, wp_pure,
      Fin.ofNat_val_eq_self]
    refine ⟨hm'.1, ?_⟩
    simp only [if_true]
    refine ⟨by rw [PageDir.page_setPte_self he, if_pos rfl], fun j hj hji => ?_⟩
    rw [PageDir.page_setPte_of_ne (lt_nPage hi) (lt_nPage hj) hji, hsame]

end Specs

/-! ### Shrinking -/

theorem lt_nextTable (i : ℕ) : i < (i / nEntries + 1) * nEntries :=
  Nat.lt_mul_of_div_lt (Nat.lt_succ_self _) (Nat.pos_of_neZero nEntries)

theorem PageDir.table_setPte (d : PageDir) (i : ℕ) (e : Pte) (k : Fin nEntries) :
    ((d.setPte i e).table k).map (·.frame) = (d.table k).map (·.frame) := by
  by_cases hk : k = pdx i
  · subst hk
    simp [setPte, Function.comp_def]
  · simp [setPte, hk]

/-- The frames of the mapped pages from page `lo` up to page `hi`. -/
def PageDir.framesIn (d : PageDir) (lo hi : ℕ) : List Frame :=
  (List.range' lo (hi - lo)).filterMap fun j => (d.page j).map (·.frame)

/-- The pages from `lo` up to `hi` have been unmapped, and their frames have been filled with junk
and put on the free list, in this order. All other entries are as before. -/
structure Freed (lo hi : ℕ) (d : PageDir) (m : Mem) (d' : PageDir) (m' : Mem) : Prop where
  frame : d'.frame = d.frame
  table : ∀ i, (d'.table i).map (·.frame) = (d.table i).map (·.frame)
  pte : ∀ j < nPage, d'.pte j =
    if lo ≤ j ∧ j < hi ∧ (d.page j).isSome = true then some .zero else d.pte j
  free : m'.freelist = (d.framesIn lo hi).reverse ++ m.freelist
  ram : ∀ f, m'.ram f = if f ∈ d.framesIn lo hi then fun _ => 1 else m.ram f
  failed : m'.failed = m.failed

section Freed

variable {L : Layout} {d d' : PageDir} {m m' : Mem} {lo hi i j : ℕ} {f : Frame} {E : Panic → Prop}

theorem PageDir.mem_framesIn : f ∈ d.framesIn lo hi ↔
    ∃ j, lo ≤ j ∧ j < hi ∧ ∃ e, d.page j = some e ∧ e.frame = f := by
  simp only [framesIn, List.mem_filterMap, List.mem_range'_1, Option.map_eq_some_iff]
  constructor
  · rintro ⟨j, hj, he⟩
    exact ⟨j, hj.1, by omega, he⟩
  · rintro ⟨j, hlo, hhi, he⟩
    exact ⟨j, ⟨hlo, by omega⟩, he⟩

theorem PageDir.framesIn_of_le (h : hi ≤ lo) : d.framesIn lo hi = [] := by
  rw [framesIn, Nat.sub_eq_zero_of_le h]
  rfl

theorem PageDir.framesIn_of_lt (h : lo < hi) :
    d.framesIn lo hi = ((d.page lo).map (·.frame)).toList ++ d.framesIn (lo + 1) hi := by
  rw [framesIn, framesIn, show hi - lo = hi - (lo + 1) + 1 by omega, List.range'_succ]
  cases hp : d.page lo <;> simp [hp]

theorem PageDir.framesIn_skip (hle : lo ≤ i) (h : ∀ j, lo ≤ j → j < i → j < hi → d.page j = none) :
    d.framesIn lo hi = d.framesIn i hi := by
  induction i, hle using Nat.le_induction with
  | base => rfl
  | succ i hle ih =>
    rw [ih fun j hj hji => h j hj (by omega)]
    by_cases hlt : i < hi
    · rw [framesIn_of_lt hlt, h i hle (by omega) hlt]
      rfl
    · rw [framesIn_of_le (by omega), framesIn_of_le (by omega)]

theorem PageDir.framesIn_congr (h : ∀ j, lo ≤ j → j < hi → d'.page j = d.page j) :
    d'.framesIn lo hi = d.framesIn lo hi := by
  refine List.filterMap_congr fun j hj => ?_
  have hrange := List.mem_range'_1.mp hj
  rw [h j hrange.1 (by omega)]

theorem Freed.page (h : Freed lo hi d m d' m') (hj : j < nPage) :
    d'.page j = if lo ≤ j ∧ j < hi then none else d.page j := by
  have hpte := h.pte j hj
  by_cases hr : lo ≤ j ∧ j < hi
  · rw [if_pos hr]
    by_cases hs : (d.page j).isSome = true
    · rw [if_pos ⟨hr.1, hr.2, hs⟩] at hpte
      rw [PageDir.page_of_pte hpte]
      rfl
    · rw [if_neg fun hc => hs hc.2.2] at hpte
      rw [PageDir.page, hpte]
      exact Option.not_isSome_iff_eq_none.mp hs
  · rw [if_neg hr]
    rw [if_neg fun hc => hr ⟨hc.1, hc.2.1⟩] at hpte
    rw [PageDir.page, PageDir.page, hpte]

theorem Freed.refl (h : ∀ j, lo ≤ j → j < hi → d.page j = none) : Freed lo hi d m d m := by
  have hnil : d.framesIn lo hi = [] := by
    refine List.eq_nil_iff_forall_not_mem.mpr fun f hf => ?_
    obtain ⟨j, hlo, hhi, e, he, -⟩ := PageDir.mem_framesIn.mp hf
    rw [h j hlo hhi] at he
    cases he
  refine ⟨rfl, fun _ => rfl, fun j _ => ?_, by simp [hnil], fun f => by simp [hnil], rfl⟩
  rw [if_neg]
  rintro ⟨hlo, hhi, hs⟩
  rw [h j hlo hhi] at hs
  cases hs

theorem Freed.cons {m₁ : Mem} {e : Pte} (hik : i < hi) (hn : hi ≤ nPage) (he : d.pte i = some e)
    (hp : e.present = true) (hfree : m₁.freelist = e.frame :: m.freelist)
    (hram : m₁.ram = Function.update m.ram e.frame fun _ => 1) (hfailed : m₁.failed = m.failed)
    (h : Freed (i + 1) hi (d.setPte i .zero) m₁ d' m') : Freed i hi d m d' m' := by
  have hpage (j : ℕ) (hj : j < nPage) (hji : j ≠ i) : (d.setPte i .zero).page j = d.page j :=
    PageDir.page_setPte_of_ne (by omega) hj hji
  have hself : d.page i = some e := by rw [PageDir.page_of_pte he, if_pos hp]
  have hframes : d.framesIn i hi = e.frame :: (d.setPte i .zero).framesIn (i + 1) hi := by
    rw [PageDir.framesIn_congr fun j hj hj' => hpage j (by omega) (by omega),
      PageDir.framesIn_of_lt hik, hself]
    rfl
  refine ⟨h.frame, fun k => (h.table k).trans (d.table_setPte i .zero k), fun j hj => ?_, ?_,
    fun f => ?_, h.failed.trans hfailed⟩
  · rw [h.pte j hj]
    by_cases hji : j = i
    · subst hji
      rw [if_neg (by omega), if_pos ⟨le_rfl, hik, by rw [hself]; rfl⟩, PageDir.pte_setPte_self he]
    · rw [hpage j hj hji, PageDir.pte_setPte_of_ne (by omega) hj hji]
      exact if_congr ⟨fun hc => ⟨by omega, hc.2⟩, fun hc => ⟨by omega, hc.2⟩⟩ rfl rfl
  · rw [h.free, hfree, hframes, List.reverse_cons, List.append_assoc]
    rfl
  · rw [h.ram, hram, hframes]
    by_cases hf : f = e.frame
    · subst hf
      simp
    · simp [hf]

/-- The pages of the range are unmapped, and their frames freed in order. -/
theorem wp_deallocLoop_exact {stop n : ℕ} (hn : stop ≤ i + n) (hstop : stop ≤ nPage)
    (h : ∀ j, i ≤ j → j < stop → ∀ e, d.page j = some e → L.Allocatable e.frame) :
    Wp E (deallocLoop L stop d i n) (fun d' m' => Freed i stop d m d' m') m := by
  induction n generalizing d i m with
  | zero => exact .refl fun j _ _ => by omega
  | succ n ih =>
    unfold deallocLoop
    split_ifs with hend
    · exact .refl fun j _ _ => by omega
    -- the rest of the loop, when the pages before `i₁` are not mapped
    have hskip {i₁ : ℕ} (hi₁ : i < i₁) (hnone : ∀ j, i ≤ j → j < i₁ → j < stop → d.page j = none) :
        Wp E (deallocLoop L stop d i₁ n) (fun d' m' => Freed i stop d m d' m') m := by
      refine (ih (by omega) fun j hj => h j (by omega)).mono fun d' m' hd' => ?_
      have hframes := PageDir.framesIn_skip hi₁.le hnone
      refine ⟨hd'.frame, hd'.table, fun j hj => ?_, hframes ▸ hd'.free,
        fun f => hframes ▸ hd'.ram f, hd'.failed⟩
      rw [hd'.pte j hj]
      refine if_congr ⟨fun hc => ⟨by omega, hc.2⟩, fun hc => ⟨?_, hc.2⟩⟩ rfl rfl
      by_contra hlt
      have hsome := hc.2.2
      rw [hnone j hc.1 (by omega) hc.2.1] at hsome
      cases hsome
    cases hp : d.pte i with
    | none =>
      refine hskip (lt_nextTable i) fun j hij hj _ => PageDir.page_of_none ?_
      rw [PageDir.pte, Option.map_eq_none_iff] at hp ⊢
      rwa [pdx_eq_of_lt hij hj]
    | some e =>
      by_cases he : e.present = true
      · have hframe : L.Allocatable e.frame :=
          h i le_rfl (by omega) e (by rw [PageDir.page_of_pte hp, if_pos he])
        have hne : e.frame ≠ 0 := by
          intro hzero
          have h1 := hframe.1
          have h2 := L.pos
          simp_all
        simp only [if_pos he, if_neg hne, wp_bind, kfree, if_neg hframe.not_outside, memset,
          wp_modify]
        refine (ih (by omega) fun j hj hj' e' he' => ?_).mono fun d' m' hd' => ?_
        · rw [PageDir.page_setPte_of_ne (by omega) (by omega) (by omega)] at he'
          exact h j (by omega) hj' e' he'
        · refine Freed.cons (by omega) hstop hp he ?_ ?_ ?_ hd' <;> rfl
      · simp only [if_neg he]
        refine hskip (Nat.lt_succ_self i) fun j hij hj _ => ?_
        obtain rfl : j = i := by omega
        rw [PageDir.page_of_pte hp, if_neg he]

/-- The pages between the two sizes are unmapped, and their frames freed. -/
theorem wp_deallocuvm_exact {oldsz newsz : ℕ} (hle : newsz ≤ oldsz) (hold : oldsz ≤ kernBase)
    (h : ∀ j, pages newsz ≤ j → j < pages oldsz → ∀ e, d.page j = some e → L.Allocatable e.frame) :
    Wp E (deallocuvm L d oldsz newsz) (fun r m' => r.1 = newsz ∧
      Freed (pages newsz) (pages oldsz) d m r.2 m') m := by
  have hstop : pages oldsz ≤ nPage := by
    have := pages_le_kernPage hold
    rw [nPage_eq]
    simp only [kernPage] at this
    omega
  unfold deallocuvm
  split_ifs with hsz
  · obtain rfl : oldsz = newsz := by omega
    exact ⟨rfl, .refl fun j _ _ => by omega⟩
  · rw [wp_bind]
    exact (wp_deallocLoop_exact (by omega) hstop h).mono fun d' m' hd' => ⟨rfl, hd'⟩

theorem Freed.sound (h : Freed lo hi d m d' m') (hs : Sound L d m) (hhi : hi ≤ kernPage) :
    Sound L d' m' := by
  refine ⟨fun f hf => ?_, fun j hj e he => ?_⟩
  · rw [h.free, List.mem_append, List.mem_reverse] at hf
    refine hf.elim (fun hf => ?_) (hs.free f)
    obtain ⟨j, -, hj, e, he, rfl⟩ := PageDir.mem_framesIn.mp hf
    exact hs.user j (by omega) e he
  · rw [h.page (lt_nPage hj)] at he
    split_ifs at he
    exact hs.user j hj e he

/-- Which pages are mapped after `deallocuvm`. -/
theorem wp_deallocuvm_page {oldsz newsz : ℕ} (hold : oldsz ≤ kernBase) (h : Sound L d m) :
    Wp E (deallocuvm L d oldsz newsz) (fun r m' => r.1 = min oldsz newsz ∧ Sound L r.2 m' ∧
      ∀ j < kernPage, r.2.page j =
        if pages newsz ≤ j ∧ j < pages oldsz then none else d.page j) m := by
  have htop := pages_le_kernPage hold
  by_cases hle : newsz ≤ oldsz
  · refine (wp_deallocuvm_exact hle hold fun j _ hj => h.user j (by omega)).mono fun r m' hr => ?_
    exact ⟨hr.1.trans (min_eq_right hle).symm, hr.2.sound h htop,
      fun j hj => hr.2.page (lt_nPage hj)⟩
  · have hpages : pages oldsz ≤ pages newsz := Nat.div_le_div_right (by omega)
    rw [deallocuvm, if_pos (by omega)]
    exact ⟨(min_eq_left (by omega)).symm, h, fun j _ => by rw [if_neg (by omega)]⟩

end Freed

section Specs

variable {L : Layout} {m : Mem} {d : PageDir} {i : ℕ} {E : Panic → Prop}

/-! ### Growing -/

/-- The loop of `allocuvm`, when it has come to page `i`: it maps the rest of the new pages, or
takes away all it has mapped. -/
theorem wp_allocLoop_page {oldsz newsz n : ℕ} (hnew : newsz < kernBase) (hlo : pages oldsz ≤ i)
    (hhi : i + n = pages newsz) (h : Sound L d m)
    (hnone : ∀ j, i ≤ j → j < pages newsz → d.page j = none) :
    Wp E (allocLoop L oldsz newsz d i n) (fun r m' => Sound L r.2 m' ∧
      ((r.1 = newsz ∧ ∀ j < kernPage,
        if i ≤ j ∧ j < pages newsz then (r.2.page j).isSome = true else r.2.page j = d.page j) ∨
      (r.1 = 0 ∧ ∀ j < kernPage,
        r.2.page j = if pages oldsz ≤ j ∧ j < pages newsz then none else d.page j))) m := by
  induction n generalizing d i m with
  | zero =>
    refine ⟨h, .inl ⟨rfl, fun j _ => ?_⟩⟩
    rw [if_neg (by omega)]
  | succ n ih =>
    have htop := pages_le_kernPage hnew.le
    have hik : i < kernPage := by omega
    rw [allocLoop, wp_bind]
    refine (wp_kalloc_free h.free).mono fun r m' hm' => ?_
    cases r with
    | none =>
      simp only [wp_bind, wp_pure]
      refine (wp_deallocuvm_page hnew.le ⟨hm'.1, h.user⟩).mono fun r m'' hr => ?_
      exact ⟨hr.2.1, .inr ⟨trivial, hr.2.2⟩⟩
    | some f =>
      have hf := hm'.2 f rfl
      simp only [wp_bind, memset, wp_modify]
      refine (wp_mappages_page hik (hm'.1.setRam _) (hnone i le_rfl (by omega))).mono
        fun r m₁ hr => ?_
      obtain ⟨ok, d₁⟩ := r
      cases ok with
      | false =>
        have hsame (j : ℕ) : d₁.page j = d.page j := hr.2 j
        have h₁ : Sound L d₁ m₁ := ⟨hr.1, fun j hj e he => h.user j hj e (by rwa [← hsame])⟩
        simp only [wp_bind]
        refine (wp_deallocuvm_page hnew.le h₁).mono fun r m₂ hr₂ => ?_
        refine (wp_kfree_free hf hr₂.2.1.free).mono fun _ m₃ hm₃ => ?_
        refine ⟨⟨hm₃, hr₂.2.1.user⟩, .inr ⟨rfl, fun j hj => ?_⟩⟩
        rw [hr₂.2.2 j hj, hsame]
      | true =>
        obtain ⟨hfree, hself, hother⟩ : FreeOk L m₁ ∧ d₁.page i = some ⟨⟨true, true, 0⟩, f, true⟩ ∧
          ∀ j < kernPage, j ≠ i → d₁.page j = d.page j := hr
        have h₁ : Sound L d₁ m₁ := by
          refine ⟨hfree, fun j hj e he => ?_⟩
          by_cases hji : j = i
          · rw [hji, hself] at he
            obtain rfl := Option.some.inj he
            exact hf
          · exact h.user j hj e (by rwa [← hother j hj hji])
        refine (ih (by omega) (by omega) h₁ fun j hij hj => ?_).mono fun r m₂ hr₂ => ?_
        · rw [hother j (by omega) (by omega)]
          exact hnone j (by omega) hj
        · refine ⟨hr₂.1, hr₂.2.imp (fun hok => ⟨hok.1, fun j hj => ?_⟩)
            fun hfail => ⟨hfail.1, fun j hj => ?_⟩⟩
          · have hpage := hok.2 j hj
            by_cases hji : j = i
            · rw [if_neg (by omega), hji, hself] at hpage
              rw [if_pos (by omega), hji, hpage]
              rfl
            · rw [hother j hj hji] at hpage
              simpa only [show i ≤ j ∧ j < pages newsz ↔ i + 1 ≤ j ∧ j < pages newsz by omega]
                using hpage
          · rw [hfail.2 j hj]
            split_ifs with hrange
            · rfl
            · exact hother j hj (by omega)

/-- Which pages are mapped after `allocuvm`: those of the new size, or those of before. -/
theorem wp_allocuvm_page {oldsz newsz : ℕ} (h : Sound L d m)
    (hnone : ∀ j < kernPage, pages oldsz ≤ j → d.page j = none) :
    Wp E (allocuvm L d oldsz newsz) (fun r m' => Sound L r.2 m' ∧
      ((oldsz ≤ newsz ∧ newsz < kernBase ∧ r.1 = newsz ∧ ∀ j < kernPage,
        if pages oldsz ≤ j ∧ j < pages newsz then (r.2.page j).isSome = true
        else r.2.page j = d.page j) ∨
      ((r.1 = 0 ∨ newsz < oldsz ∧ r.1 = oldsz) ∧ ∀ j < kernPage, r.2.page j = d.page j))) m := by
  unfold allocuvm
  split_ifs with hkern hlt
  · exact ⟨h, .inr ⟨.inl rfl, fun _ _ => rfl⟩⟩
  · exact ⟨h, .inr ⟨.inr ⟨hlt, rfl⟩, fun _ _ => rfl⟩⟩
  · have hle : oldsz ≤ newsz := by omega
    have hnew : newsz < kernBase := by omega
    have hpages : pages oldsz ≤ pages newsz := Nat.div_le_div_right (by omega)
    have htop := pages_le_kernPage hnew.le
    refine (wp_allocLoop_page hnew le_rfl (by omega) h fun j hj hj' =>
      hnone j (by omega) hj).mono fun r m' hr => ⟨hr.1, ?_⟩
    refine hr.2.imp (fun hok => ⟨hle, hnew, hok⟩) fun hfail => ⟨.inl hfail.1, fun j hj => ?_⟩
    rw [hfail.2 j hj]
    split_ifs with hrange
    · exact (hnone j hj hrange.1).symm
    · rfl

/-! ### `growproc` -/

variable {n : ℤ}

theorem newsz_of_neg {sz : ℕ} (hsz : sz < kernBase) (hn : -2 ^ 31 ≤ n) (hneg : sz + n < 0) :
    sz ≤ ((sz + n) % 2 ^ 32).toNat := by
  have hk : kernBase = 2147483648 := rfl
  omega

theorem newsz_of_nonneg {sz : ℕ} (hsz : sz < kernBase) (hn : n < 2 ^ 31) (hpos : 0 ≤ sz + n) :
    (((sz + n) % 2 ^ 32).toNat : ℤ) = sz + n := by
  have hk : kernBase = 2147483648 := rfl
  omega

variable {sz : ℕ}

theorem PageDir.Maps.page_eq_none {k j : ℕ} (h : d.Maps k) (hj : j < kernPage) (hk : k ≤ j) :
    d.page j = none := by
  have hnot : ¬ (d.page j).isSome = true := fun hs => absurd ((h j hj).mp hs) (by omega)
  simpa using hnot

theorem PageDir.Maps.shrink {d' : PageDir} {k l : ℕ} (h : d.Maps k) (hl : l ≤ k)
    (hpage : ∀ j < kernPage, d'.page j = if l ≤ j ∧ j < k then none else d.page j) :
    d'.Maps l := by
  intro j hj
  rw [hpage j hj]
  split_ifs with hrange
  · simp only [Option.isSome_none, Bool.false_eq_true, false_iff]
    omega
  · rw [h j hj]
    omega

theorem PageDir.Maps.grow {d' : PageDir} {k l : ℕ} (h : d.Maps k) (hl : k ≤ l)
    (hpage : ∀ j < kernPage, if k ≤ j ∧ j < l then (d'.page j).isSome = true
      else d'.page j = d.page j) : d'.Maps l := by
  intro j hj
  have hj' := hpage j hj
  split_ifs at hj' with hrange
  · simp only [hj', true_iff]
    exact hrange.2
  · rw [hj', h j hj]
    omega

/-- What a call of `growproc` should have done when it returns `r`: either the size is the sum and
the pages are those of that size, or nothing has changed. -/
def Grown (d : PageDir) (sz : ℕ) (n r : ℤ) (sz' : ℕ) (d' : PageDir) : Prop :=
  (r = 0 ∧ (sz' : ℤ) = sz + n ∧ sz' < kernBase ∧ d'.Maps (pages sz')) ∨
    (r = -1 ∧ sz' = sz ∧ ∀ i < kernPage, d'.page i = d.page i)

/-- A process that grows gets exactly the pages it asks for, or keeps what it has. -/
theorem wp_growproc_up (h : Sound L d m) (hsz : sz < kernBase) (hmaps : d.Maps (pages sz))
    (hpos : 0 < n) (hhi : n < 2 ^ 31) :
    Wp E (growproc L d sz n) (fun r _ => Grown d sz n r.1 r.2.1 r.2.2) m := by
  have hnew := newsz_of_nonneg hsz hhi (by omega)
  rw [growproc, if_pos hpos, wp_bind]
  generalize ((sz + n) % 2 ^ 32).toNat = newsz at hnew ⊢
  refine (wp_allocuvm_page h fun j hj hle => hmaps.page_eq_none hj hle).mono fun r m' hr => ?_
  obtain ⟨r, d'⟩ := r
  simp only at hr
  simp only [wp_pure]
  obtain ⟨-, ⟨hle, htop, rfl, hpage⟩ | ⟨rfl | hlt, hpage⟩⟩ := hr
  · have hpages : pages sz ≤ pages r := Nat.div_le_div_right (by omega)
    rw [if_neg (by omega)]
    exact .inl ⟨rfl, hnew, htop, hmaps.grow hpages hpage⟩
  · rw [if_pos rfl]
    exact .inr ⟨rfl, rfl, hpage⟩
  · omega

/-- A process that shrinks, with the new size as the source computes it. -/
theorem wp_growproc_down (h : Sound L d m) (hsz : sz < kernBase) (hneg : n < 0) {newsz : ℕ}
    (hnew : newsz = ((sz + n) % 2 ^ 32).toNat) :
    Wp E (growproc L d sz n) (fun r _ =>
      (if min sz newsz = 0 then r.1 = -1 ∧ r.2.1 = sz else r.1 = 0 ∧ r.2.1 = min sz newsz) ∧
      ∀ j < kernPage, r.2.2.page j =
        if pages newsz ≤ j ∧ j < pages sz then none else d.page j) m := by
  rw [growproc, if_neg (by omega), if_pos hneg, wp_bind, ← hnew]
  refine (wp_deallocuvm_page hsz.le h).mono fun r m' hr => ?_
  obtain ⟨r, d'⟩ := r
  obtain ⟨rfl, -, hpage⟩ := hr
  simp only [wp_pure]
  split_ifs with hzero
  · exact ⟨⟨rfl, rfl⟩, hpage⟩
  · exact ⟨⟨rfl, rfl⟩, hpage⟩

theorem wp_growproc_grown (h : Sound L d m) (hsz : sz < kernBase) (hmaps : d.Maps (pages sz))
    (hhi : n < 2 ^ 31) (hn : n < 0 → sz = 0 ∨ 0 < sz + n) :
    Wp E (growproc L d sz n) (fun r _ => Grown d sz n r.1 r.2.1 r.2.2) m := by
  rcases lt_trichotomy n 0 with hneg | rfl | hpos
  · refine (wp_growproc_down h hsz hneg rfl).mono fun r m' hr => ?_
    obtain ⟨hres, hpage⟩ := hr
    rcases hn hneg with rfl | hpos
    · rw [Nat.zero_min, if_pos rfl] at hres
      refine Or.inr ⟨hres.1, hres.2, fun j hj => ?_⟩
      have hzero : pages 0 = 0 := by decide
      rw [hpage j hj, if_neg (by omega)]
    · have hnew := newsz_of_nonneg hsz hhi hpos.le
      generalize ((sz + n) % 2 ^ 32).toNat = newsz at hnew hres hpage
      have hpages : pages newsz ≤ pages sz := Nat.div_le_div_right (by omega)
      rw [min_eq_right (by omega), if_neg (by omega)] at hres
      refine Or.inl ⟨hres.1, by rw [hres.2, hnew], by omega, ?_⟩
      rw [hres.2]
      exact hmaps.shrink hpages hpage
  · exact Or.inl ⟨rfl, by simp, hsz, hmaps⟩
  · exact wp_growproc_up h hsz hmaps hpos hhi

theorem growproc_to_zero (h : Sound L d m) (hsz : sz < kernBase) (hneg : n < 0) (hzero : sz + n = 0)
    (hmaps : d.Maps (pages sz)) :
    ∃ d' m', growproc L d sz n m = .ok ((-1, sz, d'), m') ∧ d'.Maps 0 := by
  obtain ⟨⟨r, sz', d'⟩, m', hok, hres, hpage⟩ :=
    (wp_growproc_down (E := fun _ => False) h hsz hneg rfl).exists_ok
  rw [hzero] at hres hpage
  rw [if_pos (by simp)] at hres
  obtain ⟨rfl, rfl⟩ : r = -1 ∧ sz' = sz := hres
  exact ⟨d', m', hok, hmaps.shrink (Nat.zero_le _) hpage⟩

theorem growproc_below_zero (h : Sound L d m) (hsz : sz < kernBase) (hpos : 0 < sz)
    (hlo : -2 ^ 31 ≤ n) (hneg : sz + n < 0) :
    ∃ d' m', growproc L d sz n m = .ok ((0, sz, d'), m') := by
  have hn : n < 0 := by omega
  obtain ⟨⟨r, sz', d'⟩, m', hok, hres, -⟩ :=
    (wp_growproc_down (E := fun _ => False) h hsz hn rfl).exists_ok
  have hnew := newsz_of_neg hsz hlo hneg
  rw [min_eq_left hnew, if_neg (by omega)] at hres
  obtain ⟨rfl, rfl⟩ : r = 0 ∧ sz' = sz := hres
  exact ⟨d', m', hok⟩

/-- `growproc` is exact or has no effect, unless the process shrinks to nothing or below; then it is
neither. -/
theorem growproc_exact (h : Sound L d m) (hsz : sz < kernBase) (hmaps : d.Maps (pages sz))
    (n : Word) :
    (∃ r sz' d' m', growproc L d sz n.toInt m = .ok ((r, sz', d'), m') ∧
      Grown d sz n.toInt r sz' d') ↔ (n.toInt < 0 → sz = 0 ∨ 0 < sz + n.toInt) := by
  have hlo : -2 ^ 31 ≤ n.toInt := BitVec.le_toInt n
  have hhi : n.toInt < 2 ^ 31 := BitVec.toInt_lt
  generalize n.toInt = n at *
  constructor
  · rintro ⟨r, sz', d', m', hok, hgrown⟩ hneg
    by_contra! hnot
    obtain ⟨hsz₀, hle⟩ := hnot
    rcases hle.lt_or_eq with hlt | hzero
    · -- the call returns 0 and the size stays
      obtain ⟨d₁, m₁, hok₁⟩ := growproc_below_zero h hsz (by omega) hlo hlt
      cases hok.symm.trans hok₁
      obtain ⟨-, hsize, -⟩ | ⟨hr, -⟩ := hgrown
      · omega
      · omega
    · -- the call returns -1 and page 0 is gone
      obtain ⟨d₁, m₁, hok₁, hmaps₁⟩ := growproc_to_zero h hsz hneg hzero hmaps
      cases hok.symm.trans hok₁
      obtain ⟨hr, -⟩ | ⟨-, -, hpage⟩ := hgrown
      · omega
      · have hpage₀ := hpage 0 (by decide)
        rw [hmaps₁.page_eq_none (by decide) le_rfl] at hpage₀
        have hmapped := (hmaps 0 (by decide)).mpr (Nat.div_pos (by simp only [pgSize]; omega)
          (by decide))
        rw [← hpage₀] at hmapped
        exact absurd hmapped Bool.false_ne_true
  · intro hn
    obtain ⟨⟨r, sz', d'⟩, m', hok, hpost⟩ :=
      (wp_growproc_grown (E := fun _ => False) h hsz hmaps hhi hn).exists_ok
    exact ⟨r, sz', d', m', hok, hpost⟩

end Specs

/-! ### A process with one page -/

/-- A directory that maps page 0 to frame 1. -/
def onePage : PageDir where
  frame := Fin.ofNat nPage 3
  table i :=
    if i = 0 then
      some ⟨Fin.ofNat nPage 2, fun j =>
        if j = 0 then ⟨⟨true, true, 0⟩, Fin.ofNat nPage 1, true⟩ else .zero⟩
    else none

/-- A layout with 16 frames. -/
def smallLayout : Layout where
  first := 1
  phystop := 16
  kmap := []
  pos := Nat.one_pos
  kern := by simp

theorem onePage_page {i : ℕ} (hi : i < nPage) :
    onePage.page i = if i = 0 then some ⟨⟨true, true, 0⟩, Fin.ofNat nPage 1, true⟩ else none := by
  rw [nPage_eq] at hi
  have hpd : pdx i = 0 ↔ i < 1024 := by
    rw [Fin.ext_iff, pdx_val, Fin.val_zero]
    omega
  have hpt : ptx i = 0 ↔ i % 1024 = 0 := by rw [Fin.ext_iff, ptx_val, Fin.val_zero]
  by_cases h1 : i < 1024
  · by_cases h2 : i = 0
    · have hpt0 : ptx i = 0 := hpt.mpr (by omega)
      rw [if_pos h2]
      simp [PageDir.page, PageDir.pte, onePage, hpd.mpr h1, hpt0]
    · have hpt0 : ptx i ≠ 0 := fun h => absurd (hpt.mp h) (by omega)
      simp [PageDir.page, PageDir.pte, onePage, hpd.mpr h1, hpt0, h2, Pte.zero]
  · have hpd0 : pdx i ≠ 0 := fun h => h1 (hpd.mp h)
    simp [PageDir.page, PageDir.pte, onePage, hpd0, show i ≠ 0 by omega]

theorem onePage_maps : onePage.Maps (pages 4096) := by
  intro i hi
  have hone : pages 4096 = 1 := by decide
  rw [onePage_page (lt_nPage hi), hone]
  split_ifs with h <;> simp [h]

theorem onePage_sound :
    Sound smallLayout onePage ⟨[], fun _ => false, 0, false, false, fun _ _ => 0⟩ := by
  refine ⟨by simp [FreeOk], fun i hi e he => ?_⟩
  rw [onePage_page (lt_nPage hi)] at he
  split_ifs at he
  obtain rfl := Option.some.inj he
  constructor
  · simp [smallLayout, nPage_eq]
  · simp [smallLayout, nPage_eq]

/-- A process of 4096 bytes calls `growproc(-4096)`: the call returns -1, and page 0 is not mapped
any more. If it calls `growproc(-8192)`, the call returns 0, and the size is still 4096. -/
theorem growproc_not_exact :
    (∃ d' m', growproc smallLayout onePage 4096 (-4096 : Word).toInt
      ⟨[], fun _ => false, 0, false, false, fun _ _ => 0⟩ = .ok ((-1, 4096, d'), m') ∧
      onePage.page 0 ≠ none ∧ d'.page 0 = none) ∧
    ∃ d' m', growproc smallLayout onePage 4096 (-8192 : Word).toInt
      ⟨[], fun _ => false, 0, false, false, fun _ _ => 0⟩ = .ok ((0, 4096, d'), m') := by
  constructor
  · obtain ⟨d', m', hok, hmaps⟩ := growproc_to_zero onePage_sound (by decide)
      (show (-4096 : Word).toInt < 0 by decide) (by decide) onePage_maps
    refine ⟨d', m', hok, ?_, hmaps.page_eq_none (by decide) le_rfl⟩
    rw [onePage_page (lt_nPage (by decide))]
    simp
  · exact growproc_below_zero onePage_sound (by decide) (by decide) (by decide) (by decide)

/-- The process shrinks by 96 bytes: the page stays. -/
theorem growproc_exact_onePage :
    ∃ r sz' d' m', growproc smallLayout onePage 4096 (-96 : Word).toInt
      ⟨[], fun _ => false, 0, false, false, fun _ _ => 0⟩ = .ok ((r, sz', d'), m') ∧
      Grown onePage 4096 (-96 : Word).toInt r sz' d' :=
  (growproc_exact onePage_sound (by decide) onePage_maps (-96)).mpr fun _ => Or.inr (by decide)

end Dave.Memory
