import Dave.Memory.Grow

/-!
# What `mappages` maps

The pages that `mappages` maps, for any permissions, and where the frames of the new page tables
come from. `setupkvm`, `allocuvm` and `copyuvm` all map pages in this way.
-/

namespace Dave.Memory

/-- Between `d` and `d'` a page table has been added that lives in frame `f`. -/
def Taken (d d' : PageDir) (f : Frame) : Prop :=
  ∃ i t, d.table i = none ∧ d'.table i = some t ∧ t.frame = f

/-- From `d` and `m`, page tables have been added to the directory and entries have been set. The
frames of the page tables are the first ones of the free list. -/
structure Built (d : PageDir) (m : Mem) (d' : PageDir) (m' : Mem) : Prop where
  frame : d'.frame = d.frame
  table : ∀ i t, d.table i = some t → ∃ t', d'.table i = some t' ∧ t'.frame = t.frame
  free : m'.freelist <:+ m.freelist
  taken : ∀ f ∈ m.freelist, f ∈ m'.freelist ∨ Taken d d' f
  ram : m'.ram = m.ram

section Specs

variable {L : Layout} {m m' m'' : Mem} {d d' d'' : PageDir} {i n pa : ℕ} {perm : Perm}
  {E : Panic → Prop}

theorem Built.refl (d : PageDir) (m : Mem) : Built d m d m :=
  ⟨rfl, fun _ t ht => ⟨t, ht, rfl⟩, List.suffix_refl _, fun _ => .inl, rfl⟩

theorem Built.trans (h : Built d m d' m') (h' : Built d' m' d'' m'') : Built d m d'' m'' where
  frame := h'.frame.trans h.frame
  table i t ht := by
    obtain ⟨t', ht', hf⟩ := h.table i t ht
    obtain ⟨t'', ht'', hf'⟩ := h'.table i t' ht'
    exact ⟨t'', ht'', hf'.trans hf⟩
  free := h'.free.trans h.free
  taken f hf := by
    rcases h.taken f hf with hf | ⟨i, t, hnone, ht, rfl⟩
    · rcases h'.taken f hf with hf | ⟨i, t, hnone, ht, rfl⟩
      · exact .inl hf
      · refine .inr ⟨i, t, ?_, ht, rfl⟩
        -- a page table of `d` would still be there in `d'`
        rw [Option.eq_none_iff_forall_ne_some]
        intro t₀ ht₀
        obtain ⟨t', ht', -⟩ := h.table i t₀ ht₀
        rw [hnone] at ht'
        cases ht'
    · obtain ⟨t', ht', hf'⟩ := h'.table i t ht
      exact .inr ⟨i, t', hnone, ht', hf'⟩
  ram := h'.ram.trans h.ram

theorem Built.setPte (h : Built d m d' m') (i : ℕ) (e : Pte) : Built d m (d'.setPte i e) m' := by
  have htable (k : Fin nEntries) (t : PageTable) (ht : d'.table k = some t) :
      ∃ t', (d'.setPte i e).table k = some t' ∧ t'.frame = t.frame := by
    have hk := d'.table_setPte i e k
    rw [ht] at hk
    exact Option.map_eq_some_iff.mp hk
  refine ⟨h.frame, fun k t ht => ?_, h.free, fun f hf => ?_, h.ram⟩
  · obtain ⟨t', ht', hf⟩ := h.table k t ht
    obtain ⟨t'', ht'', hf'⟩ := htable k t' ht'
    exact ⟨t'', ht'', hf'.trans hf⟩
  · refine (h.taken f hf).imp_right ?_
    rintro ⟨k, t, hnone, ht, rfl⟩
    obtain ⟨t', ht', hf'⟩ := htable k t ht
    exact ⟨k, t', hnone, ht', hf'⟩

theorem wp_kalloc_exact : Wp E kalloc (fun r m' => m'.ram = m.ram ∧
    m.freelist = r.toList ++ m'.freelist ∧
    m'.failed = if r = none then true else m.failed) m := by
  simp only [kalloc, wp_bind, wp_get]
  split
  · next f rest _ hlist => exact ⟨rfl, hlist, rfl⟩
  · exact ⟨rfl, rfl, rfl⟩

theorem wp_walkpgdir_exact : Wp E (walkpgdir d i) (fun r m' =>
    (r = none → Built d m d m' ∧ m'.failed = true) ∧
    ∀ d', r = some d' → Built d m d' m' ∧ m'.failed = m.failed ∧ (∃ e, d'.pte i = some e) ∧
      ∀ j, d'.page j = d.page j) m := by
  unfold walkpgdir
  split
  · next t ht =>
    refine ⟨by simp, ?_⟩
    rintro _ ⟨⟩
    exact ⟨.refl d m, rfl, ⟨t.pte (ptx i), by rw [PageDir.pte, ht, Option.map_some]⟩, fun _ => rfl⟩
  · next ht =>
    rw [wp_bind]
    refine wp_kalloc_exact.mono fun r m' hr => ?_
    obtain ⟨hram, hlist, hfailed⟩ := hr
    cases r with
    | none =>
      have hfree : m'.freelist = m.freelist := hlist.symm
      exact ⟨fun _ => ⟨⟨rfl, fun _ t ht => ⟨t, ht, rfl⟩, hfree ▸ List.suffix_refl _,
        fun f hf => .inl (hfree ▸ hf), hram⟩, hfailed⟩, by simp⟩
    | some f =>
      have hfree : m.freelist = f :: m'.freelist := hlist
      refine ⟨by simp, ?_⟩
      rintro _ ⟨⟩
      refine ⟨⟨rfl, fun k t hk => ⟨t, ?_, rfl⟩, hfree ▸ List.suffix_cons f _, fun g hg => ?_, hram⟩,
        hfailed, ⟨.zero, by simp [PageDir.pte, PageDir.setTable]⟩,
        fun j => PageDir.page_setTable ht f⟩
      · have hne : k ≠ pdx i := fun h => by
          rw [h, ht] at hk
          cases hk
        simpa [PageDir.setTable, hne] using hk
      · rw [hfree] at hg
        rcases List.mem_cons.mp hg with rfl | hg
        · exact .inr ⟨pdx i, ⟨g, fun _ => .zero⟩, ht, by simp [PageDir.setTable], rfl⟩
        · exact .inl hg

/-- The entry for page `j` when the pages from `i` on are mapped to the frames from `pa` on. -/
def mapped (i pa : ℕ) (perm : Perm) (j : ℕ) : Pte :=
  ⟨perm, Fin.ofNat nPage (pa + (j - i)), true⟩

/-- `mappages` maps all pages, or the first `k` of them when it cannot get a page table. It does not
panic if none of them is mapped yet. -/
theorem wp_mappages_exact (hi : i + n ≤ nPage) (hnone : ∀ j, i ≤ j → j < i + n → d.page j = none) :
    Wp E (mappages d i pa perm n) (fun r m' => Built d m r.2 m' ∧
      ∃ k ≤ n, (r.1 = true → k = n ∧ m'.failed = m.failed) ∧
        (r.1 = false → k < n ∧ m'.failed = true) ∧ ∀ j < nPage, r.2.page j =
        if i ≤ j ∧ j < i + k then some (mapped i pa perm j) else d.page j) m := by
  induction n generalizing d i pa m with
  | zero =>
    exact ⟨.refl d m, 0, le_rfl, fun _ => ⟨rfl, rfl⟩, by simp, fun j _ => by rw [if_neg (by omega)]⟩
  | succ n ih =>
    rw [mappages, wp_bind]
    refine wp_walkpgdir_exact.mono fun r m₁ hr => ?_
    cases r with
    | none =>
      obtain ⟨hbuilt, hfailed⟩ := hr.1 rfl
      exact ⟨hbuilt, 0, Nat.zero_le _, by simp, fun _ => ⟨Nat.succ_pos n, hfailed⟩,
        fun j _ => by rw [if_neg (by omega)]⟩
    | some d₁ =>
      obtain ⟨hbuilt, hfailed, ⟨e, he⟩, hsame⟩ := hr.2 d₁ rfl
      have habsent : e.present = false := by
        have hpage := hsame i
        rw [hnone i le_rfl (by omega), PageDir.page_of_pte he] at hpage
        simpa using hpage
      simp only [he, Option.any_some, habsent, Bool.false_eq_true, if_false]
      -- the directory with page `i` mapped
      have hpage (j : ℕ) (hj : j < nPage) :
          (d₁.setPte i ⟨perm, Fin.ofNat nPage pa, true⟩).page j =
            if j = i then some (mapped i pa perm j) else d.page j := by
        split_ifs with hji
        · subst hji
          rw [PageDir.page_setPte_self he, if_pos rfl, mapped, Nat.sub_self, Nat.add_zero]
        · rw [PageDir.page_setPte_of_ne (by omega) hj hji, hsame]
      refine (ih (by omega) fun j hj hj' => ?_).mono fun r m₂ hr₂ => ?_
      · rw [hpage j (by omega), if_neg (by omega)]
        exact hnone j (by omega) (by omega)
      · obtain ⟨hbuilt₂, k, hk, hall, hsome, hpages⟩ := hr₂
        refine ⟨(hbuilt.setPte i _).trans hbuilt₂, k + 1, by omega,
          fun hr => ⟨by rw [(hall hr).1], (hall hr).2.trans hfailed⟩,
          fun hr => ⟨Nat.succ_lt_succ (hsome hr).1, (hsome hr).2⟩, fun j hj => ?_⟩
        rw [hpages j hj, hpage j hj]
        by_cases hji : j = i
        · rw [if_neg (by omega), if_pos hji, if_pos (by omega)]
        · rw [if_neg hji]
          by_cases hlt : i + 1 ≤ j ∧ j < i + 1 + k
          · rw [if_pos hlt, if_pos (by omega), mapped, mapped,
              show pa + 1 + (j - (i + 1)) = pa + (j - i) by omega]
          · rw [if_neg hlt, if_neg (by omega)]

end Specs

end Dave.Memory
