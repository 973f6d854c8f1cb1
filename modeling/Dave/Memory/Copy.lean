import Dave.Memory.Contents

/-!
# Copying an address space

`copyuvm` makes the address space of a child: the kernel part as in every address space, and the
pages of the parent, copied to new frames. If a call of `kalloc` fails, everything is freed again.

## Main results

* `wp_copyuvm_exact`: the pages of the copy, with their flags and their contents.
* A copy that fails gives all frames back.
-/

namespace Dave.Memory

section Copy

variable {L : Layout} {src d₀ d : PageDir} {m₀ m : Mem} {i : ℕ}

/-- The entry of a page of the parent. -/
def PageDir.entry (src : PageDir) (j : ℕ) : Pte := (src.page j).getD .zero

/-- The contents of a page of the parent. -/
def PageDir.contents (src : PageDir) (r : Phys) (j : ℕ) : ℕ → Byte := r (src.entry j).frame

/-- The pages before `i` are copies of those of the source; the loop goes on with page `i`. -/
theorem wp_copyLoop_exact {n stop : ℕ} (hhi : i + n = stop) (htop : stop ≤ kernPage)
    (hnodup : m₀.freelist.Nodup) (hnone : ∀ j < stop, d₀.page j = none)
    (hsrc : ∀ j < stop, ∃ e, src.page j = some e ∧ e.frame ∉ m₀.freelist)
    (hfailed : m.failed = m₀.failed)
    (h : Filled src.entry (src.contents m₀.ram) 0 d₀ m₀ none i d m) :
    Wp (· = .kfree) (copyLoop L src d i n) (fun r m' => (r = none → m'.failed = true) ∧
      ∀ d', r = some d' → Filled src.entry (src.contents m₀.ram) 0 d₀ m₀ none stop d' m' ∧
        m'.failed = m₀.failed) m := by
  induction n generalizing d i m with
  | zero =>
    obtain rfl : i = stop := by omega
    refine ⟨by simp, ?_⟩
    rintro _ ⟨⟩
    exact ⟨h, hfailed⟩
  | succ n ih =>
    obtain ⟨e, he, hused⟩ := hsrc i (by omega)
    obtain ⟨hpte, hp⟩ := Option.filter_eq_some_iff.mp he
    have hentry : src.entry i = e := by rw [PageDir.entry, he, Option.getD_some]
    have hin : i < nPage := lt_nPage (by omega)
    unfold copyLoop
    simp only [hpte, hp, Bool.true_eq_false, if_false, wp_bind]
    refine wp_kalloc_exact.mono fun r m₁ hr => ?_
    obtain ⟨hram, hlist, hfailed₁⟩ := hr
    cases r with
    | none =>
      simp only [wp_bind]
      exact wp_freevm_error.mono fun _ _ h => ⟨fun _ => h.trans hfailed₁, by simp⟩
    | some f =>
      -- the page of the parent has not been written to
      have hcontent : m₁.ram e.frame = src.contents m₀.ram i := by
        rw [hram, h.ram _ hused, PageDir.contents, hentry]
      have h₁ := h.take hnodup hlist hram
      rw [← hcontent] at h₁
      have hbase : (src.entry i).at f = ⟨e.toPerm, f, true⟩ := by rw [hentry]; rfl
      simp only [wp_bind, memmove, wp_modify]
      refine (wp_mappages_filled h₁ (Nat.zero_le i) hin (hnone i (by omega)) hbase).mono
        fun r m₂ hr => ?_
      obtain ⟨b, d₂⟩ := r
      cases b with
      | false =>
        simp only [wp_bind]
        exact (wp_kfree_error f).mono fun _ _ h₃ => wp_freevm_error.mono fun _ _ h₄ =>
          ⟨fun _ => h₄.trans (h₃.trans (hr.2 rfl).2), by simp⟩
      | true =>
        obtain ⟨h₂, hfailed₂⟩ := hr.1 rfl
        exact ih (by omega) (hfailed₂.trans (hfailed₁.trans hfailed)) h₂

/-- The copy has the pages of the source with their contents, over the map of the kernel. -/
theorem wp_copyuvm_exact {sz : ℕ} (hL : L.Apart) (htop : kernPage + L.phystop ≤ 0xFE000)
    (hsz : sz ≤ kernBase) (hnodup : m.freelist.Nodup)
    (hsrc : ∀ j < pages sz, ∃ e, src.page j = some e ∧ e.frame ∉ m.freelist) :
    Wp (· = .kfree) (copyuvm L src sz) (fun r m' => (r = none → m'.failed = true) ∧
      ∀ d, r = some d → ∃ d₀ m₀, m₀.freelist <:+ m.freelist ∧ m₀.ram = m.ram ∧
        (∀ j < nPage, d₀.page j = pageIn L.kmap j) ∧
        Filled src.entry (src.contents m₀.ram) 0 d₀ m₀ none (pages sz) d m' ∧
        m'.failed = m.failed) m := by
  have hpages := pages_le_kernPage hsz
  rw [copyuvm, wp_bind]
  refine (wp_setupkvm_pages hL htop).mono fun r m₀ hr => ?_
  cases r with
  | none => exact ⟨fun _ => hr.1 rfl, by simp⟩
  | some d₀ =>
    obtain ⟨hfailed, hfree, hram, hpage⟩ := hr.2 d₀ rfl
    have hnone (j : ℕ) (hj : j < pages sz) : d₀.page j = none := by
      rw [hpage j (lt_nPage (by omega)), pageIn_eq_none fun k hk hc => ?_]
      have := (L.kern k hk).1
      omega
    refine (wp_copyLoop_exact (Nat.zero_add _) hpages (hnodup.sublist hfree.sublist) hnone
      (fun j hj => ?_) rfl .refl).mono fun r m' hr => ⟨hr.1, fun d hd => ?_⟩
    · obtain ⟨e, he, hnot⟩ := hsrc j hj
      exact ⟨e, he, fun hmem => hnot (hfree.subset hmem)⟩
    · obtain ⟨hfill, hfailed'⟩ := hr.2 d hd
      exact ⟨d₀, m₀, hfree, hram, hpage, hfill, hfailed'.trans hfailed⟩

/-- `copyuvm` never panics when the pages of the parent are there, in frames that are in use.

If it returns a directory, no call of `kalloc` has failed. The kernel part is that of any directory
that `setupkvm` returns; the user part has exactly the pages of the parent, with the same flag bits
and the same bytes, each in a frame of its own that was free and was not in use.

If it returns none, a call of `kalloc` has failed, and the free frames are those from before. In any
case the contents of the frames in use are what they were. -/
theorem Link.copyuvm_exact (k : Link) {pool : Finset Frame} {X : Multiset Frame} {sz : ℕ}
    (hpool : InRange k.layout pool) (h : Conserved pool X m) (hsz : sz ≤ kernBase)
    (hsrc : ∀ j < pages sz, ∃ e, src.page j = some e ∧ e.frame ∈ X) :
    ∃ r m', copyuvm k.layout src sz m = .ok (r, m') ∧ (∀ f ∈ X, m'.ram f = m.ram f) ∧
      (r = none → m'.failed = true ∧ m'.freelist.Perm m.freelist) ∧
      ∀ d, r = some d → m'.failed = m.failed ∧
        (∀ d₁ m₁ m₁', setupkvm k.layout m₁ = .ok (some d₁, m₁') →
          ∀ j, kernPage ≤ j → j < nPage → d.page j = d₁.page j) ∧
        (∀ j < kernPage, pages sz ≤ j → d.page j = none) ∧
        (∀ j < pages sz, ∃ e f, src.page j = some e ∧ d.page j = some { e with frame := f } ∧
          f ∈ m.freelist ∧ f ∉ X ∧ f ∉ m'.freelist ∧ m'.ram f = m.ram e.frame) ∧
        ∀ i j e e', i < pages sz → j < pages sz → d.page i = some e → d.page j = some e' →
          e.frame = e'.frame → i = j := by
  have htop : kernPage + k.layout.phystop ≤ 0xFE000 :=
    show 0x80000 + 0xE000 ≤ 0xFE000 by decide
  have hpages := pages_le_kernPage hsz
  have hexact : Wp (· = .kfree) (copyuvm k.layout src sz) _ m :=
    wp_copyuvm_exact k.layout_apart htop hsz h.nodup fun j hj => by
      obtain ⟨e, he, hX⟩ := hsrc j hj
      exact ⟨e, he, h.disjoint hX⟩
  have hok : Wp (fun _ => False) (copyuvm k.layout src sz) _ m :=
    (((wp_copyuvm hpool hsz h).and_error hexact).weaken fun e he => he.1.1 he.2)
  obtain ⟨r, m', hrun, ⟨hcons, hkept⟩, hcopy⟩ := hok.exists_ok
  refine ⟨r, m', hrun, hkept, fun hr => ⟨hcopy.1 hr, ?_⟩, fun d hd => ?_⟩
  · rw [hr] at hcons
    have heq : (m'.freelist : Multiset Frame) + X = (m.freelist : Multiset Frame) + X := by
      rw [h.eq, ← hcons.eq, Option.elim_none, zero_add]
    exact Multiset.coe_eq_coe.mp (add_right_cancel heq)
  · obtain ⟨d₀, m₀, hfree, hram, hkern, hfill, hfailed⟩ := hcopy.2 d hd
    have hlow (j : ℕ) (hj : j < kernPage) : d₀.page j = none := by
      rw [hkern j (lt_nPage hj), pageIn_eq_none fun k' hk' hc => ?_]
      have := (k.layout.kern k' hk').1
      omega
    -- a page of the copy, with the page of the parent
    have hnew (j : ℕ) (hj : j < pages sz) : ∃ e f, src.page j = some e ∧
        d.page j = some { e with frame := f } ∧ f ∈ m.freelist ∧ f ∉ m'.freelist ∧
        m'.ram f = m.ram e.frame := by
      obtain ⟨e, he, -⟩ := hsrc j hj
      obtain ⟨f, hf, hnot, hp, hr⟩ := hfill.new j (Nat.zero_le j) hj
      have hentry : src.entry j = e := by rw [PageDir.entry, he, Option.getD_some]
      have hpresent : e.present = true := (Option.filter_eq_some_iff.mp he).2
      refine ⟨e, f, he, ?_, hfree.subset hf, hnot, ?_⟩
      · rw [hp, hentry, Pte.at, ← hpresent]
      · rw [hr, PageDir.contents, hentry, hram]
    refine ⟨hfailed, fun d₁ m₁ m₁' hset j hj hj' => ?_, fun j hj hj' => ?_, fun j hj => ?_,
      fun i j e e' hi hj he he' hee => ?_⟩
    · obtain ⟨-, -, -, hpage⟩ := ((wp_setupkvm_pages k.layout_apart htop).of_ok hset).2 d₁ rfl
      rw [hfill.same j hj' (by omega), hkern j hj', hpage j hj']
    · rw [hfill.same j (lt_nPage hj) (by omega), hlow j hj]
    · obtain ⟨e, f, he, hp, hf, hnot, hr⟩ := hnew j hj
      exact ⟨e, f, he, hp, hf, fun hX => h.disjoint hX hf, hnot, hr⟩
    · obtain ⟨f, -, -, hp, -⟩ := hfill.new i (Nat.zero_le i) hi
      obtain ⟨g, -, -, hq, -⟩ := hfill.new j (Nat.zero_le j) hj
      rw [hp] at he
      rw [hq] at he'
      have hfg : f = g := by
        rw [← Option.some.inj he, ← Option.some.inj he'] at hee
        exact hee
      exact hfill.inj i j f (Nat.zero_le i) hi (Nat.zero_le j) hj hp (hfg ▸ hq)

/-! ### A copy -/

theorem wp_copyLoop_stocked {n : ℕ} (h : Stocked n d m) :
    Wp (fun _ => True) (copyLoop L src d i n) (fun r _ => ∃ d', r = some d') m := by
  induction n generalizing d i m with
  | zero => exact ⟨d, rfl⟩
  | succ n ih =>
    unfold copyLoop
    cases src.pte i with
    | none => trivial
    | some e =>
      simp only [wp_ite]
      split_ifs
      · trivial
      have henough := h.enough
      rw [wp_bind]
      refine (wp_kalloc_stocked h.willing (by omega)).mono fun r m₁ hr' => ?_
      obtain ⟨hr, hwilling, hlen⟩ := hr'
      obtain ⟨f, rfl⟩ := Option.isSome_iff_exists.mp hr
      simp only [wp_bind, memmove, wp_modify]
      have h₁ : Stocked n d { m₁ with ram := Function.update m₁.ram f (m₁.ram e.frame) } :=
        ⟨hwilling, by simp only; omega⟩
      refine (wp_mappages_stocked h₁).mono fun r m₂ hr => ?_
      obtain ⟨b, d₂⟩ := r
      obtain ⟨rfl, h₂⟩ := hr
      exact ih h₂

/-- `copyuvm` makes a copy when there is a frame for each page, and for the directory and all its
page tables. -/
theorem wp_copyuvm_stocked {sz : ℕ} (hwilling : ∀ i, m.refuse i = false)
    (hlen : nEntries + 1 + pages sz ≤ m.freelist.length) :
    Wp (fun _ => True) (copyuvm L src sz) (fun r _ => ∃ d, r = some d) m := by
  rw [copyuvm, wp_bind]
  refine (wp_setupkvm_stocked hwilling hlen).mono fun r m' hr => ?_
  obtain ⟨d, rfl, h⟩ := hr
  exact wp_copyLoop_stocked h

/-- A directory that maps page 0 to frame `0x1000`, for reading only and with the bit `PTE_A`. -/
def readOnlyPage : PageDir where
  frame := Fin.ofNat nPage 0x2000
  table _ := some ⟨Fin.ofNat nPage 0x2001,
    fun _ => ⟨⟨false, true, 4⟩, Fin.ofNat nPage 0x1000, true⟩⟩

/-- The page is copied, with its bytes and its flag bits. -/
theorem copyuvm_exact_readOnlyPage : ∃ d m' f, copyuvm smallLink.layout readOnlyPage 4096
    ⟨framesFrom 0x1001 1026, fun _ => false, 0, false, false, fun _ _ => 7⟩ = .ok (some d, m') ∧
    d.page 0 = some ⟨⟨false, true, 4⟩, f, true⟩ ∧ f ≠ Fin.ofNat nPage 0x1000 ∧
    m'.ram f = (fun _ => 7) ∧ m'.ram (Fin.ofNat nPage 0x1000) = fun _ => 7 := by
  have hn : 0x1000 + 1027 ≤ 0xE000 := by decide
  obtain ⟨m, hm⟩ : ∃ m : Mem,
      m = ⟨framesFrom 0x1001 1026, fun _ => false, 0, false, false, fun _ _ => 7⟩ := ⟨_, rfl⟩
  rw [← hm]
  have hcons : Conserved ⟨_, Multiset.coe_nodup.mpr (nodup_framesFrom hn)⟩
      {Fin.ofNat nPage 0x1000} m := by
    rw [hm]
    refine ⟨?_, rfl⟩
    have hframes : framesFrom 0x1000 (1026 + 1) =
      Fin.ofNat nPage 0x1000 :: framesFrom 0x1001 1026 := rfl
    simp only [hframes, ← Multiset.cons_coe, ← Multiset.singleton_add]
    exact add_comm _ _
  have hsrc (j : ℕ) (_ : j < pages 4096) :
      ∃ e, readOnlyPage.page j = some e ∧ e.frame ∈ ({Fin.ofNat nPage 0x1000} : Multiset Frame) :=
    ⟨_, rfl, Multiset.mem_singleton_self _⟩
  obtain ⟨r, m', hrun, hkept, -, hcopy⟩ := smallLink.copyuvm_exact
    (framesFrom_inRange hn (by decide)) hcons (show 4096 ≤ kernBase by decide) hsrc
  have hlen : nEntries + 1 + pages 4096 ≤ m.freelist.length := by
    rw [hm, framesFrom, List.length_map, List.length_range', nEntries_eq,
      show pages 4096 = 1 from rfl]
  obtain ⟨d, rfl⟩ := (wp_copyuvm_stocked (by simp [hm]) hlen).of_ok hrun
  obtain ⟨-, -, -, hpages, -⟩ := hcopy d rfl
  obtain ⟨e, f, he, hf, -, hnot, -, hram⟩ := hpages 0 (by decide)
  obtain rfl := Option.some.inj he
  refine ⟨d, m', f, hrun, hf, fun heq => hnot (by simp [heq]), ?_, ?_⟩
  · rw [hram, hm]
  · rw [hkept _ (by simp), hm]

end Copy

end Dave.Memory
