import Dave.Memory.Frames

/-!
# The kernel part of an address space

Programs can use only the pages that are mapped with `PTE_U`. In the kernel part of every address
space no page is: `setupkvm` maps the kernel without it, and the other functions only change pages
below `KERNBASE`.
-/

namespace Dave.Memory

/-- No page of the kernel part can be used by a program. -/
def PageDir.Safe (d : PageDir) : Prop :=
  ∀ i t, d.table i = some t → 512 ≤ i.val → ∀ j, (t.pte j).user = false

section Safe

variable {L : Layout} {d : PageDir} {m : Mem} {i : ℕ}

theorem PageDir.Safe.empty (f : Frame) : PageDir.Safe ⟨f, fun _ => none⟩ := nofun

theorem PageDir.Safe.setTable (h : d.Safe) (f : Frame) : (d.setTable i f).Safe := by
  intro k t ht hk j
  by_cases hki : k = pdx i
  · subst hki
    obtain rfl : (⟨f, fun _ => .zero⟩ : PageTable) = t := by simpa [PageDir.setTable] using ht
    rfl
  · exact h k t (by simpa [PageDir.setTable, hki] using ht) hk j

theorem PageDir.Safe.setPte (h : d.Safe) (hi : i < nPage) {e : Pte}
    (he : e.user = true → i < kernPage) : (d.setPte i e).Safe := by
  intro k t ht hk j
  by_cases hki : k = pdx i
  · subst hki
    simp only [PageDir.setPte, Function.update_self] at ht
    obtain ⟨t₀, ht₀, rfl⟩ := Option.map_eq_some_iff.mp ht
    by_cases hj : j = ptx i
    · subst hj
      have hkern : ¬ i < kernPage := fun hlt => absurd ((pdx_lt_iff hi).mpr hlt) (by omega)
      simpa using fun hu => hkern (he hu)
    · simpa [hj] using h _ t₀ ht₀ hk j
  · exact h k t (by simpa [PageDir.setPte, hki] using ht) hk j

theorem wp_walkpgdir_safe (h : d.Safe) :
    Wp (fun _ => True) (walkpgdir d i) (fun r _ => ∀ d', r = some d' → d'.Safe) m := by
  unfold walkpgdir
  split
  · rintro _ ⟨⟩
    exact h
  · rw [wp_bind]
    refine (Wp.of_true _ _).mono fun r m' _ => ?_
    cases r with
    | none => nofun
    | some f =>
      rintro _ ⟨⟩
      exact h.setTable f

theorem wp_mappages_safe {pa n : ℕ} {perm : Perm} (h : d.Safe)
    (hi : i + n ≤ if perm.user then kernPage else nPage) :
    Wp (fun _ => True) (mappages d i pa perm n) (fun r _ => r.2.Safe) m := by
  have htop : (if perm.user then kernPage else nPage) ≤ nPage := by
    rw [nPage_eq]
    split_ifs
    · decide
    · exact le_rfl
  induction n generalizing d i pa m with
  | zero => exact h
  | succ n ih =>
    rw [mappages, wp_bind]
    refine (wp_walkpgdir_safe h).mono fun r m' hr => ?_
    cases r with
    | none => exact h
    | some d' =>
      rw [wp_ite]
      split_ifs
      · trivial
      · refine ih ((hr d' rfl).setPte (by omega) fun hu => ?_) (by omega)
        change perm.user = true at hu
        rw [if_pos hu] at hi
        omega

theorem wp_deallocLoop_safe {stop n : ℕ} (hstop : stop ≤ nPage) (h : d.Safe) :
    Wp (fun _ => True) (deallocLoop L stop d i n) (fun d' _ => d'.Safe) m := by
  induction n generalizing d i m with
  | zero => exact h
  | succ n ih =>
    unfold deallocLoop
    split_ifs with hend
    · exact h
    split
    · exact ih h
    · split_ifs
      · trivial
      · rw [wp_bind]
        exact (Wp.of_true _ _).mono fun _ m' _ => ih (h.setPte (by omega) nofun)
      · exact ih h

variable {oldsz newsz : ℕ}

theorem wp_deallocuvm_safe (hold : oldsz ≤ kernBase) (h : d.Safe) :
    Wp (fun _ => True) (deallocuvm L d oldsz newsz) (fun r _ => r.2.Safe) m := by
  unfold deallocuvm
  split_ifs
  · exact h
  · rw [wp_bind]
    have hstop : pages oldsz ≤ nPage := by
      rw [nPage_eq]
      exact (pages_le_kernPage hold).trans (by decide)
    exact (wp_deallocLoop_safe hstop h).mono fun _ _ hd => hd

theorem wp_kmapLoop_safe {ks : List Kmap} (hks : ∀ k ∈ ks, k ∈ L.kmap) (h : d.Safe) :
    Wp (fun _ => True) (kmapLoop L d ks) (fun r _ => ∀ d', r = some d' → d'.Safe) m := by
  induction ks generalizing d m with
  | nil =>
    rintro _ ⟨⟩
    exact h
  | cons k ks ih =>
    rw [kmapLoop, wp_bind]
    refine (wp_mappages_safe h (L.kern k (hks k (List.mem_cons_self ..))).2).mono
      fun r m' hr => ?_
    obtain ⟨ok, d'⟩ := r
    cases ok with
    | false =>
      simp only [wp_bind, wp_pure]
      exact (Wp.of_true _ _).mono fun _ _ _ => by simp
    | true => exact ih (fun k' hk' => hks k' (List.mem_cons_of_mem _ hk')) hr

theorem wp_setupkvm_safe :
    Wp (fun _ => True) (setupkvm L) (fun r _ => ∀ d, r = some d → d.Safe) m := by
  rw [setupkvm, wp_bind]
  refine (Wp.of_true _ _).mono fun r m' _ => ?_
  cases r with
  | none => rintro _ ⟨⟩
  | some f =>
    rw [wp_ite]
    split_ifs
    · trivial
    · exact wp_kmapLoop_safe (fun _ => id) (.empty f)

theorem wp_allocLoop_safe {n : ℕ} (hnew : newsz ≤ kernBase) (hi : i + n ≤ kernPage) (h : d.Safe) :
    Wp (fun _ => True) (allocLoop L oldsz newsz d i n) (fun r _ => r.2.Safe) m := by
  induction n generalizing d i m with
  | zero => exact h
  | succ n ih =>
    rw [allocLoop, wp_bind]
    refine (Wp.of_true _ _).mono fun r m' _ => ?_
    cases r with
    | none =>
      simp only [wp_bind, wp_pure]
      exact wp_deallocuvm_safe hnew h
    | some mem =>
      simp only [wp_bind]
      refine (wp_mappages_safe h (by simpa using by omega)).mono fun r m'' hr => ?_
      obtain ⟨ok, d'⟩ := r
      cases ok with
      | false =>
        simp only [wp_bind, wp_pure]
        refine (wp_deallocuvm_safe hnew hr).mono fun r' m₃ hr' => ?_
        exact (Wp.of_true _ _).mono fun _ _ _ => hr'
      | true => exact ih (by omega) hr

theorem wp_allocuvm_safe (h : d.Safe) :
    Wp (fun _ => True) (allocuvm L d oldsz newsz) (fun r _ => r.2.Safe) m := by
  unfold allocuvm
  split_ifs
  · exact h
  · exact h
  · have hle : newsz ≤ kernBase := by omega
    have hpages : pages oldsz ≤ pages newsz := Nat.div_le_div_right (by omega)
    have := pages_le_kernPage hle
    exact wp_allocLoop_safe hle (by omega) h

theorem wp_copyLoop_safe {src : PageDir} {n : ℕ} (hi : i + n ≤ kernPage) (h : d.Safe) :
    Wp (fun _ => True) (copyLoop L src d i n) (fun r _ => ∀ d', r = some d' → d'.Safe) m := by
  induction n generalizing d i m with
  | zero =>
    rintro _ ⟨⟩
    exact h
  | succ n ih =>
    unfold copyLoop
    cases src.pte i with
    | none => trivial
    | some e =>
      simp only [wp_bind, wp_ite]
      split_ifs
      · trivial
      refine (Wp.of_true _ _).mono fun r m' _ => ?_
      cases r with
      | none =>
        simp only [wp_bind, wp_pure]
        exact (Wp.of_true _ _).mono fun _ _ _ => by simp
      | some mem =>
        simp only [wp_bind]
        have htop : i + 1 ≤ if e.user then kernPage else nPage := by
          rw [nPage_eq]
          split_ifs
          · omega
          · have : kernPage ≤ 1048576 := by decide
            omega
        refine (wp_mappages_safe h htop).mono fun r m'' hr => ?_
        obtain ⟨ok, d'⟩ := r
        cases ok with
        | false =>
          simp only [wp_bind, wp_pure]
          refine (Wp.of_true _ _).mono fun _ _ _ => ?_
          exact (Wp.of_true _ _).mono fun _ _ _ => by simp
        | true => exact ih (by omega) hr

theorem wp_copyuvm_safe {src : PageDir} {sz : ℕ} (hsz : sz ≤ kernBase) :
    Wp (fun _ => True) (copyuvm L src sz) (fun r _ => ∀ d, r = some d → d.Safe) m := by
  rw [copyuvm, wp_bind]
  refine wp_setupkvm_safe.mono fun r m' hr => ?_
  cases r with
  | none => rintro _ ⟨⟩
  | some d => exact wp_copyLoop_safe (by simpa using pages_le_kernPage hsz) (hr d rfl)

theorem wp_clearpteu_safe (hi : i < nPage) (h : d.Safe) :
    Wp (fun _ => True) (clearpteu d i) (fun d' _ => d'.Safe) m := by
  unfold clearpteu
  split
  · trivial
  · exact h.setPte hi nofun

end Safe

end Dave.Memory
