import Dave.Memory.Kernel

/-!
# The contents of address spaces

What `allocuvm` and `deallocuvm` do to the pages of an address space, to the bytes in them, and to
the free list.

The loops of `allocuvm` and `copyuvm` fill pages with frames from the free list. `Filled` says what
has been done when such a loop has come to some page; when it fails, everything is given back but
the page tables, which stay in the directory.
-/

namespace Dave.Memory

open List

/-! ### Mapping new pages -/

/-- The entry `e`, for another frame. -/
def Pte.at (e : Pte) (f : Frame) : Pte := { e with frame := f, present := true }

/-- From `d₀` and `m₀`, a loop has mapped the pages from `lo` up to `i` to frames from the free
list, page `j` as in the entry `base j` and with the contents `content j`. The loop may have a frame
in hand, which it has filled for page `i`. -/
structure Filled (base : ℕ → Pte) (content : ℕ → ℕ → Byte) (lo : ℕ) (d₀ : PageDir) (m₀ : Mem)
    (hand : Option Frame) (i : ℕ) (d : PageDir) (m : Mem) : Prop where
  frame : d.frame = d₀.frame
  table : ∀ i t, d₀.table i = some t → ∃ t', d.table i = some t' ∧ t'.frame = t.frame
  same : ∀ j < nPage, ¬ (lo ≤ j ∧ j < i) → d.page j = d₀.page j
  new : ∀ j, lo ≤ j → j < i → ∃ f ∈ m₀.freelist, f ∉ m.freelist ∧
    d.page j = some ((base j).at f) ∧ m.ram f = content j
  inj : ∀ j k f, lo ≤ j → j < i → lo ≤ k → k < i → d.page j = some ((base j).at f) →
    d.page k = some ((base k).at f) → j = k
  inHand : ∀ f, hand = some f → f ∈ m₀.freelist ∧ f ∉ m.freelist ∧ m.ram f = content i ∧
    ∀ j, lo ≤ j → j < i → d.page j ≠ some ((base j).at f)
  ram : ∀ f ∉ m₀.freelist, m.ram f = m₀.ram f
  free : m.freelist <:+ m₀.freelist
  taken : ∀ f ∈ m₀.freelist, f ∈ m.freelist ∨ hand = some f ∨ Taken d₀ d f ∨
    ∃ j, lo ≤ j ∧ j < i ∧ d.page j = some ((base j).at f)

/-- The pages are those of `d₀` again. The frames that were free in `m₀` are free, but for those of
new page tables and the one in hand. -/
structure Restored (d₀ : PageDir) (m₀ : Mem) (hand : Option Frame) (d : PageDir) (m : Mem) :
    Prop where
  page : ∀ j < nPage, d.page j = d₀.page j
  ram : ∀ f ∉ m₀.freelist, m.ram f = m₀.ram f
  free : ∀ f ∈ m.freelist, f ∈ m₀.freelist
  taken : ∀ f ∈ m₀.freelist, f ∈ m.freelist ∨ hand = some f ∨ Taken d₀ d f

section Filled

variable {L : Layout} {base : ℕ → Pte} {content : ℕ → ℕ → Byte} {lo hi i : ℕ} {d₀ d d' : PageDir}
  {m₀ m m₁ m' : Mem} {f : Frame} {hand : Option Frame} {E : Panic → Prop}

theorem Taken.of_later (h : Taken d d' f)
    (htable : ∀ i t, d₀.table i = some t → ∃ t', d.table i = some t' ∧ t'.frame = t.frame) :
    Taken d₀ d' f := by
  obtain ⟨k, t, hnone, ht, rfl⟩ := h
  refine ⟨k, t, Option.eq_none_iff_forall_ne_some.mpr fun t₀ ht₀ => ?_, ht, rfl⟩
  obtain ⟨t', ht', -⟩ := htable k t₀ ht₀
  rw [hnone] at ht'
  cases ht'

theorem Taken.kept (h : Taken d₀ d f)
    (htable : ∀ i t, d.table i = some t → ∃ t', d'.table i = some t' ∧ t'.frame = t.frame) :
    Taken d₀ d' f := by
  obtain ⟨k, t, hnone, ht, rfl⟩ := h
  obtain ⟨t', ht', hf⟩ := htable k t ht
  exact ⟨k, t', hnone, ht', hf⟩

theorem Filled.refl : Filled base content lo d₀ m₀ none lo d₀ m₀ where
  frame := rfl
  table _ t ht := ⟨t, ht, rfl⟩
  same _ _ _ := rfl
  new j hj hj' := by omega
  inj j k f hj hj' := by omega
  inHand f hf := by cases hf
  ram _ _ := rfl
  free := suffix_refl _
  taken _ hf := .inl hf

theorem Filled.take (h : Filled base content lo d₀ m₀ none i d m) (hnodup : m₀.freelist.Nodup)
    (hlist : m.freelist = f :: m₁.freelist) (hram : m₁.ram = m.ram) :
    Filled base content lo d₀ m₀ (some f) i d
      { m₁ with ram := Function.update m₁.ram f (content i) } := by
  have hmem : f ∈ m.freelist := hlist ▸ mem_cons_self ..
  have hsub : m₁.freelist <:+ m.freelist := hlist ▸ suffix_cons f _
  have hnd : (f :: m₁.freelist).Nodup := hlist ▸ hnodup.sublist h.free.sublist
  have hram' (g : Frame) (hg : g ≠ f) : Function.update m₁.ram f (content i) g = m.ram g := by
    rw [Function.update_of_ne hg, hram]
  -- the frames that have been mapped before are not on the free list any more
  have hold (j : ℕ) (hj : lo ≤ j) (hj' : j < i) : d.page j ≠ some ((base j).at f) := fun hp => by
    obtain ⟨g, -, hgn, hp', -⟩ := h.new j hj hj'
    rw [hp] at hp'
    have hfg : f = g := congrArg Pte.frame (Option.some.inj hp')
    exact hgn (hfg ▸ hmem)
  refine ⟨h.frame, h.table, h.same, fun j hj hj' => ?_, h.inj, ?_, fun g hg => ?_,
    hsub.trans h.free, fun g hg => ?_⟩
  · obtain ⟨g, hg, hgn, hp, hr⟩ := h.new j hj hj'
    exact ⟨g, hg, fun hc => hgn (hsub.subset hc), hp,
      (hram' g fun hgf => hgn (hgf ▸ hmem)).trans hr⟩
  · rintro _ ⟨⟩
    exact ⟨h.free.subset hmem, (nodup_cons.mp hnd).1, Function.update_self .., hold⟩
  · exact (hram' g fun hgf => hg (hgf ▸ h.free.subset hmem)).trans (h.ram g hg)
  · rcases h.taken g hg with hgm | hh | ht
    · rw [hlist] at hgm
      exact (mem_cons.mp hgm).elim (fun hgf => .inr (.inl (congrArg some hgf.symm))) .inl
    · cases hh
    · exact .inr (.inr ht)

theorem Filled.built (h : Filled base content lo d₀ m₀ hand i d m) (hb : Built d m d' m')
    (hpage : ∀ j < nPage, d'.page j = d.page j) (hi : i ≤ nPage) :
    Filled base content lo d₀ m₀ hand i d' m' where
  frame := hb.frame.trans h.frame
  table k t ht := by
    obtain ⟨t', ht', hf⟩ := h.table k t ht
    obtain ⟨t'', ht'', hf'⟩ := hb.table k t' ht'
    exact ⟨t'', ht'', hf'.trans hf⟩
  same j hj hn := (hpage j hj).trans (h.same j hj hn)
  new j hj hj' := by
    obtain ⟨f, hf, hnot, hp, hr⟩ := h.new j hj hj'
    exact ⟨f, hf, fun hmem => hnot (hb.free.subset hmem), (hpage j (by omega)).trans hp,
      (congrFun hb.ram f).trans hr⟩
  inj j k f hj hj' hk hk' hpj hpk := by
    rw [hpage j (by omega)] at hpj
    rw [hpage k (by omega)] at hpk
    exact h.inj j k f hj hj' hk hk' hpj hpk
  inHand f hf := by
    obtain ⟨hmem, hnot, hr, hne⟩ := h.inHand f hf
    refine ⟨hmem, fun hc => hnot (hb.free.subset hc), (congrFun hb.ram f).trans hr,
      fun j hj hj' => ?_⟩
    rw [hpage j (by omega)]
    exact hne j hj hj'
  ram f hf := (congrFun hb.ram f).trans (h.ram f hf)
  free := hb.free.trans h.free
  taken f hf := by
    rcases h.taken f hf with hmem | hh | ht | ⟨j, hj, hj', hp⟩
    · exact (hb.taken f hmem).imp_right fun ht => .inr (.inl (ht.of_later h.table))
    · exact .inr (.inl hh)
    · exact .inr (.inr (.inl (ht.kept hb.table)))
    · exact .inr (.inr (.inr ⟨j, hj, hj', (hpage j (by omega)).trans hp⟩))

theorem Filled.map (h : Filled base content lo d₀ m₀ (some f) i d m) (hb : Built d m d' m')
    (hlo : lo ≤ i) (hi : i < nPage) (hself : d'.page i = some ((base i).at f))
    (hpage : ∀ j < nPage, j ≠ i → d'.page j = d.page j) :
    Filled base content lo d₀ m₀ none (i + 1) d' m' := by
  obtain ⟨hmem, hnot, hcontent, hne⟩ := h.inHand f rfl
  refine ⟨hb.frame.trans h.frame, fun k t ht => ?_, fun j hj hn => ?_, fun j hj hj' => ?_,
    fun j k g hj hj' hk hk' hpj hpk => ?_, (fun g hg => by cases hg),
    fun g hg => (congrFun hb.ram g).trans (h.ram g hg), hb.free.trans h.free, fun g hg => ?_⟩
  · obtain ⟨t', ht', hf⟩ := h.table k t ht
    obtain ⟨t'', ht'', hf'⟩ := hb.table k t' ht'
    exact ⟨t'', ht'', hf'.trans hf⟩
  · rw [hpage j hj (by omega)]
    exact h.same j hj (by omega)
  · by_cases hji : j = i
    · subst hji
      exact ⟨f, hmem, fun hc => hnot (hb.free.subset hc), hself, (congrFun hb.ram f).trans hcontent⟩
    · obtain ⟨g, hg, hgn, hp, hr⟩ := h.new j hj (by omega)
      exact ⟨g, hg, fun hc => hgn (hb.free.subset hc), by rw [hpage j (by omega) hji, hp],
        (congrFun hb.ram g).trans hr⟩
  · -- the frame in hand has not been mapped before
    have hother (j : ℕ) (hj : lo ≤ j) (hj' : j < i) (hp : d'.page j = some ((base j).at g))
        (hp' : d'.page i = some ((base i).at g)) : False := by
      rw [hself] at hp'
      have hfg : f = g := congrArg Pte.frame (Option.some.inj hp')
      rw [hpage j (by omega) (by omega), ← hfg] at hp
      exact hne j hj hj' hp
    by_cases hji : j = i
    · by_cases hki : k = i
      · rw [hji, hki]
      · exact (hother k hk (by omega) hpk (hji ▸ hpj)).elim
    · by_cases hki : k = i
      · exact (hother j hj (by omega) hpj (hki ▸ hpk)).elim
      · rw [hpage j (by omega) hji] at hpj
        rw [hpage k (by omega) hki] at hpk
        exact h.inj j k g hj (by omega) hk (by omega) hpj hpk
  · rcases h.taken g hg with hgm | hh | ht | ⟨j, hj, hj', hp⟩
    · exact (hb.taken g hgm).imp_right fun ht => .inr (.inl (ht.of_later h.table))
    · cases hh
      exact .inr (.inr (.inr ⟨i, hlo, Nat.lt_succ_self i, hself⟩))
    · exact .inr (.inr (.inl (ht.kept hb.table)))
    · exact .inr (.inr (.inr ⟨j, hj, by omega, by rw [hpage j (by omega) (by omega), hp]⟩))

theorem Filled.mem_freelist (h : Filled base content lo d₀ m₀ hand i d m) (hhi : hi ≤ nPage)
    (hnone : ∀ j, lo ≤ j → j < hi → d₀.page j = none) {j : ℕ} {e : Pte} (hj : lo ≤ j)
    (hj' : j < hi) (he : d.page j = some e) : e.frame ∈ m₀.freelist := by
  by_cases hji : j < i
  · obtain ⟨g, hg, -, hp, -⟩ := h.new j hj hji
    rw [hp] at he
    exact Option.some.inj he ▸ hg
  · rw [h.same j (by omega) (by omega), hnone j hj hj'] at he
    cases he

theorem Filled.restore (h : Filled base content lo d₀ m₀ hand i d m) (hle : i ≤ hi)
    (hhi : hi ≤ nPage) (hnone : ∀ j, lo ≤ j → j < hi → d₀.page j = none)
    (hf : Freed lo hi d m d' m') : Restored d₀ m₀ hand d' m' := by
  have hmem {g : Frame} (hg : g ∈ d.framesIn lo hi) : g ∈ m₀.freelist := by
    obtain ⟨j, hj, hj', e, he, rfl⟩ := PageDir.mem_framesIn.mp hg
    exact h.mem_freelist hhi hnone hj hj' he
  refine ⟨fun j hj => ?_, fun g hg => ?_, fun g hg => ?_, fun g hg => ?_⟩
  · rw [hf.page hj]
    split_ifs with hr
    · exact (hnone j hr.1 hr.2).symm
    · exact h.same j hj (by omega)
  · rw [hf.ram, if_neg fun hc => hg (hmem hc)]
    exact h.ram g hg
  · rw [hf.free, mem_append, mem_reverse] at hg
    exact hg.elim hmem fun hg => h.free.subset hg
  · rw [hf.free, mem_append, mem_reverse]
    rcases h.taken g hg with hgm | hh | ht | ⟨j, hj, hj', hp⟩
    · exact .inl (.inr hgm)
    · exact .inr (.inl hh)
    · refine .inr (.inr (ht.kept fun k t hk => ?_))
      have htable := hf.table k
      rw [hk] at htable
      exact Option.map_eq_some_iff.mp htable
    · exact .inl (.inl (PageDir.mem_framesIn.mpr ⟨j, hj, by omega, _, hp, rfl⟩))

theorem wp_kfree_restored (hf : L.Allocatable f) (hmem : f ∈ m₀.freelist)
    (h : Restored d₀ m₀ (some f) d m) :
    Wp E (kfree L f) (fun _ m' => Restored d₀ m₀ none d m' ∧ m'.failed = m.failed) m := by
  simp only [kfree, if_neg hf.not_outside, wp_bind, memset, wp_modify]
  refine ⟨⟨h.page, fun g hg => ?_, fun g hg => ?_, fun g hg => ?_⟩, trivial⟩
  · have hne : g ≠ f := fun hgf => hg (hgf ▸ hmem)
    exact (Function.update_of_ne hne ..).trans (h.ram g hg)
  · exact (mem_cons.mp hg).elim (fun hgf : g = f => hgf ▸ hmem) (h.free g)
  · rcases h.taken g hg with hgm | hh | ht
    · exact .inl (mem_cons_of_mem _ hgm)
    · cases hh
      exact .inl (mem_cons_self ..)
    · exact .inr (.inr ht)

/-- Mapping the frame that has been filled adds a page to those that are done. -/
theorem wp_mappages_filled {perm : Perm}
    (h : Filled base content lo d₀ m₀ (some f) i d m) (hlo : lo ≤ i) (hi : i < nPage)
    (hnone : d₀.page i = none) (hbase : (base i).at f = ⟨perm, f, true⟩) :
    Wp E (mappages d i f.val perm 1) (fun r m' =>
      (r.1 = true → Filled base content lo d₀ m₀ none (i + 1) r.2 m' ∧ m'.failed = m.failed) ∧
      (r.1 = false → Filled base content lo d₀ m₀ (some f) i r.2 m' ∧ m'.failed = true)) m := by
  have hfree (j : ℕ) (hj : i ≤ j) (hj' : j < i + 1) : d.page j = none := by
    obtain rfl : j = i := by omega
    rw [h.same j hi (by omega), hnone]
  refine (wp_mappages_exact (by omega) hfree).mono fun r m' hr => ?_
  obtain ⟨hb, k, -, hall, hfail, hpage⟩ := hr
  refine ⟨fun hr => ?_, fun hr => ?_⟩
  · obtain ⟨rfl, hfailed⟩ := hall hr
    refine ⟨h.map hb hlo hi ?_ fun j hj hji => ?_, hfailed⟩
    · rw [hpage i hi, if_pos (by omega), mapped, hbase, Nat.sub_self, Nat.add_zero,
        Fin.ofNat_val_eq_self]
    · rw [hpage j hj, if_neg (by omega)]
  · obtain ⟨hk, hfailed⟩ := hfail hr
    refine ⟨h.built hb (fun j hj => ?_) hi.le, hfailed⟩
    rw [hpage j hj, if_neg (by omega)]

end Filled

/-! ### Growing -/

section Grow

variable {L : Layout} {d₀ d : PageDir} {m₀ m : Mem} {i oldsz newsz : ℕ} {E : Panic → Prop}

/-- The entries of the pages of `allocuvm`. -/
def newPage (_ : ℕ) : Pte := ⟨⟨true, true, 0⟩, 0, true⟩

/-- The contents of the pages of `allocuvm`. -/
def zeroPage (_ _ : ℕ) : Byte := 0

theorem pages_le_nPage {size : ℕ} (h : size ≤ kernBase) : pages size ≤ nPage := by
  have hle := pages_le_kernPage h
  rw [nPage_eq]
  simp only [kernPage] at hle
  omega

/-- The loop maps pages of zeros, or gives back all it has taken. -/
theorem wp_allocLoop_exact {n : ℕ} (hle : oldsz ≤ newsz) (hnew : newsz < kernBase)
    (hlo : pages oldsz ≤ i) (hhi : i + n = pages newsz) (hok : FreeOk L m₀)
    (hnodup : m₀.freelist.Nodup)
    (hnone : ∀ j, pages oldsz ≤ j → j < pages newsz → d₀.page j = none)
    (h : Filled newPage zeroPage (pages oldsz) d₀ m₀ none i d m) :
    Wp E (allocLoop L oldsz newsz d i n) (fun r m' =>
      (r.1 = newsz ∧ Filled newPage zeroPage (pages oldsz) d₀ m₀ none (pages newsz) r.2 m') ∨
      (r.1 = 0 ∧ m'.failed = true ∧ Restored d₀ m₀ none r.2 m')) m := by
  have htop := pages_le_nPage hnew.le
  induction n generalizing d i m with
  | zero =>
    obtain rfl : i = pages newsz := by omega
    exact .inl ⟨rfl, h⟩
  | succ n ih =>
    have hfree {d₁ : PageDir} {m₁ : Mem} {hand : Option Frame}
        (h₁ : Filled newPage zeroPage (pages oldsz) d₀ m₀ hand i d₁ m₁) :
        Wp E (deallocuvm L d₁ newsz oldsz)
          (fun r m' => Restored d₀ m₀ hand r.2 m' ∧ m'.failed = m₁.failed) m₁ :=
      (wp_deallocuvm_exact hle hnew.le fun j hj hj' e he =>
        hok _ (h₁.mem_freelist htop hnone hj hj' he)).mono fun r m' hr =>
          ⟨h₁.restore (by omega) htop hnone hr.2, hr.2.failed⟩
    rw [allocLoop, wp_bind]
    refine wp_kalloc_exact.mono fun r m₁ hr => ?_
    obtain ⟨hram, hlist, hfailed⟩ := hr
    cases r with
    | none =>
      have h₁ : Filled newPage zeroPage (pages oldsz) d₀ m₀ none i d m₁ := by
        have hsame : m₁.freelist = m.freelist := hlist.symm
        exact h.built ⟨rfl, fun _ t ht => ⟨t, ht, rfl⟩, hsame ▸ suffix_refl _,
          fun f hf => .inl (hsame ▸ hf), hram⟩ (fun _ _ => rfl) (by omega)
      simp only [wp_bind, wp_pure]
      exact (hfree h₁).mono fun r m' hr => .inr ⟨trivial, hr.2.trans hfailed, hr.1⟩
    | some f =>
      have h₁ := h.take hnodup hlist hram
      have hmem := (h₁.inHand f rfl).1
      simp only [wp_bind, memset, wp_modify]
      refine (wp_mappages_filled h₁ hlo (by omega) (hnone i hlo (by omega)) rfl).mono
        fun r m₂ hr => ?_
      obtain ⟨b, d₂⟩ := r
      cases b with
      | false =>
        obtain ⟨h₂, hfailed₂⟩ := hr.2 rfl
        simp only [wp_bind]
        refine (hfree h₂).mono fun r m₃ hr₃ => ?_
        refine (wp_kfree_restored (hok f hmem) hmem hr₃.1).mono fun _ m₄ hm₄ => ?_
        exact .inr ⟨rfl, hm₄.2.trans (hr₃.2.trans hfailed₂), hm₄.1⟩
      | true => exact ih (by omega) (by omega) (hr.1 rfl).1

/-- The new pages are full of zeros, or the call fails and has no effect. -/
theorem wp_allocuvm_exact (hle : oldsz ≤ newsz) (hnew : newsz < kernBase) (hok : FreeOk L m)
    (hnodup : m.freelist.Nodup)
    (hnone : ∀ j, pages oldsz ≤ j → j < pages newsz → d.page j = none) :
    Wp E (allocuvm L d oldsz newsz) (fun r m' =>
      (r.1 = newsz ∧ Filled newPage zeroPage (pages oldsz) d m none (pages newsz) r.2 m') ∨
      (r.1 = 0 ∧ m'.failed = true ∧ Restored d m none r.2 m')) m := by
  have hpages : pages oldsz ≤ pages newsz := Nat.div_le_div_right (by omega)
  rw [allocuvm, if_neg (by omega), if_neg (by omega)]
  exact wp_allocLoop_exact hle hnew le_rfl (by omega) hok hnodup hnone .refl

/-- Growing and shrinking are exact.

When exactly the pages of the old size are mapped, in frames that are not free, `allocuvm` either
maps exactly those of the new size, the new ones to different frames from the free list that are
filled with zeros, or fails because a call of `kalloc` did: then the pages are as before, and a
frame that was free is free again or is that of a new page table. In both cases only frames that
were free have been written to.

When the user pages are in different frames of the allocator, `deallocuvm` unmaps and frees exactly
the mapped pages between the two sizes, each once, and leaves all other entries as they are. -/
theorem resize_exact (L : Layout) :
    (∀ d m oldsz newsz, FreeOk L m → m.freelist.Nodup → d.Maps (pages oldsz) →
      (∀ j < kernPage, ∀ e, d.page j = some e → e.frame ∉ m.freelist) →
      oldsz ≤ newsz → newsz < kernBase →
      ∃ r d' m', allocuvm L d oldsz newsz m = .ok ((r, d'), m') ∧
        (∀ j < pages oldsz, d'.page j = d.page j ∧
          ∀ e, d.page j = some e → m'.ram e.frame = m.ram e.frame) ∧
        (∀ f ∉ m.freelist, m'.ram f = m.ram f) ∧
        ((r = newsz ∧ d'.Maps (pages newsz) ∧
          (∀ j, pages oldsz ≤ j → j < pages newsz → ∃ f ∈ m.freelist, f ∉ m'.freelist ∧
            d'.page j = some ⟨⟨true, true, 0⟩, f, true⟩ ∧ ∀ x, m'.ram f x = 0) ∧
          ∀ j k f, pages oldsz ≤ j → j < pages newsz → pages oldsz ≤ k → k < pages newsz →
            d'.page j = some ⟨⟨true, true, 0⟩, f, true⟩ →
            d'.page k = some ⟨⟨true, true, 0⟩, f, true⟩ → j = k) ∨
        (r = 0 ∧ m'.failed = true ∧ (∀ j < kernPage, d'.page j = d.page j) ∧
          ∀ f ∈ m.freelist, f ∈ m'.freelist ∨ Taken d d' f))) ∧
    ∀ d m oldsz newsz, newsz < oldsz → oldsz ≤ kernBase →
      (∀ j < kernPage, ∀ e, d.page j = some e → L.Allocatable e.frame) →
      (∀ j k e e', j < kernPage → k < kernPage → d.page j = some e → d.page k = some e' →
        e.frame = e'.frame → j = k) →
      ∃ d' m', deallocuvm L d oldsz newsz m = .ok ((newsz, d'), m') ∧
        Freed (pages newsz) (pages oldsz) d m d' m' ∧
        (d.framesIn (pages newsz) (pages oldsz)).Nodup := by
  refine ⟨fun d m oldsz newsz hok hnodup hmaps hused hle hnew => ?_,
    fun d m oldsz newsz hlt hold hok hinj => ?_⟩
  · have htop := pages_le_kernPage hnew.le
    have hpages : pages oldsz ≤ pages newsz := Nat.div_le_div_right (by omega)
    have hnone (j : ℕ) (hj : pages oldsz ≤ j) (hj' : j < pages newsz) : d.page j = none :=
      Option.not_isSome_iff_eq_none.mp fun hs => by
        have := (hmaps j (by omega)).mp hs
        omega
    obtain ⟨⟨r, d'⟩, m', hrun, hr⟩ := (wp_allocuvm_exact hle hnew hok hnodup hnone).exists_ok
    refine ⟨r, d', m', hrun, ?_⟩
    rcases hr with ⟨hr, hfill⟩ | ⟨hr, hfailed, hres⟩
    · obtain rfl : r = newsz := hr
      refine ⟨fun j hj => ⟨?_, fun e he => ?_⟩, hfill.ram,
        Or.inl ⟨rfl, fun j hj => ?_, fun j hj hj' => ?_, hfill.inj⟩⟩
      · exact hfill.same j (lt_nPage (by omega)) (by omega)
      · exact hfill.ram _ (hused j (by omega) e he)
      · by_cases hjn : pages oldsz ≤ j ∧ j < pages r
        · obtain ⟨f, -, -, hp, -⟩ := hfill.new j hjn.1 hjn.2
          rw [hp]
          exact ⟨fun _ => hjn.2, fun _ => rfl⟩
        · rw [hfill.same j (lt_nPage hj) hjn, hmaps j hj]
          omega
      · obtain ⟨f, hf, hnot, hp, hr⟩ := hfill.new j hj hj'
        exact ⟨f, hf, hnot, hp, fun x => congrFun hr x⟩
    · refine ⟨fun j hj => ⟨hres.page j (lt_nPage (by omega)), fun e he => ?_⟩, hres.ram,
        Or.inr ⟨hr, hfailed, fun j hj => hres.page j (lt_nPage hj), fun f hf => ?_⟩⟩
      · exact hres.ram _ (hused j (by omega) e he)
      · exact (hres.taken f hf).imp_right fun h => h.resolve_left (by simp)
  · have htop := pages_le_kernPage hold
    obtain ⟨⟨r, d'⟩, m', hrun, rfl, hfreed⟩ := (wp_deallocuvm_exact (m := m) hlt.le hold
      fun j hj hj' => hok j (by omega)).exists_ok
    refine ⟨d', m', hrun, hfreed, ?_⟩
    refine pairwise_filterMap.mpr ((nodup_range' 1).imp_of_mem ?_)
    intro j k hj hk hjk f hf g hg hfg
    obtain ⟨e, he, rfl⟩ := Option.map_eq_some_iff.mp hf
    obtain ⟨e', he', rfl⟩ := Option.map_eq_some_iff.mp hg
    have hj' := mem_range'_1.mp hj
    have hk' := mem_range'_1.mp hk
    exact hjk (hinj j k e e' (by omega) (by omega) he he' hfg)

/-- A process of one page and one free frame: it grows to two pages, and shrinks to nothing. -/
theorem resize_exact_onePage :
    (∃ r d' m', allocuvm smallLayout onePage 4096 8192
        ⟨[Fin.ofNat nPage 4], fun _ => false, 0, false, false, fun _ _ => 7⟩ = .ok ((r, d'), m') ∧
      ∀ j < pages 4096, d'.page j = onePage.page j) ∧
    ∃ d' m', deallocuvm smallLayout onePage 4096 0
        ⟨[], fun _ => false, 0, false, false, fun _ _ => 7⟩ = .ok ((0, d'), m') ∧
      Freed (pages 0) (pages 4096) onePage
        ⟨[], fun _ => false, 0, false, false, fun _ _ => 7⟩ d' m' := by
  have hframe (j : ℕ) (hj : j < kernPage) (e : Pte) (he : onePage.page j = some e) :
      j = 0 ∧ e.frame.val = 1 := by
    rw [onePage_page (lt_nPage hj)] at he
    split_ifs at he with h0
    obtain rfl := Option.some.inj he
    refine ⟨h0, ?_⟩
    rw [Fin.val_ofNat, nPage_eq]
  have hfour : (Fin.ofNat nPage 4).val = 4 := by rw [Fin.val_ofNat, nPage_eq]
  obtain ⟨hgrow, hshrink⟩ := resize_exact smallLayout
  constructor
  · obtain ⟨r, d', m', hrun, hsame, -⟩ := hgrow onePage
      ⟨[Fin.ofNat nPage 4], fun _ => false, 0, false, false, fun _ _ => 7⟩ 4096 8192
      (fun f hf => by
        rw [mem_singleton.mp hf]
        exact ⟨by rw [hfour]; decide, by rw [hfour]; decide⟩)
      (nodup_singleton _) onePage_maps
      (fun j hj e he hmem => by
        have hone := (hframe j hj e he).2
        rw [mem_singleton.mp hmem, hfour] at hone
        cases hone)
      (by decide) (by decide)
    exact ⟨r, d', m', hrun, fun j hj => (hsame j hj).1⟩
  · obtain ⟨d', m', hrun, hfreed, -⟩ := hshrink onePage
      ⟨[], fun _ => false, 0, false, false, fun _ _ => 7⟩ 4096 0 (by decide) (by decide)
      (fun j hj e he => by
        have hone := (hframe j hj e he).2
        exact ⟨by rw [hone]; decide, by rw [hone]; decide⟩)
      (fun j k e e' hj hk he he' _ => by
        rw [(hframe j hj e he).1, (hframe k hk e' he').1])
    exact ⟨d', m', hrun, hfreed⟩

end Grow

end Dave.Memory
