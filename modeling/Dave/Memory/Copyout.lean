import Dave.Memory.Grow

/-!
# Copying to another address space

`copyout` copies bytes to user addresses of a page directory that need not be the current one, page
by page. This file has the contents of the frames, and what `copyout` does to them.

`uva2ka` follows the result of `walkpgdir` without a test. If the directory has no page table for
the address, this is a null pointer. `copyout` does what it should if and only if it does not come
to such an address, and no two addresses that it writes to are the same byte of memory.
-/

namespace Dave.Memory

open BitVec

/-! ### The code -/

/-- Code that changes the contents of frames. -/
abbrev PhysM : Type → Type := StateT Phys (Except Panic)

/-- `memmove(P2V(f) + o, buf, n)`, where `buf` has `n` bytes. -/
def Phys.store (m : Phys) (f : Frame) (o : ℕ) (buf : List Byte) : Phys :=
  Function.update m f fun x => if o ≤ x then (buf[x - o]?).getD (m f x) else m f x

def pgRoundDown (a : Word) : Word := a &&& ~~~4095

/-- Map a user page to its frame. The entry is read even if there is none. -/
def uva2ka (d : PageDir) (i : ℕ) : PhysM (Option Frame) :=
  match d.pte i with
  | none => throw .nullPointer
  | some e =>
    if e.present = false then return none
    else if e.user = false then return none
    else return some e.frame

/-- The loop of `copyout`. Each round copies at least one byte. -/
def copyoutLoop (d : PageDir) : ℕ → Word → List Byte → PhysM ℤ
  | 0, _, _ => return 0
  | fuel + 1, va, buf =>
    if buf.length = 0 then return 0
    else do
      let va0 := pgRoundDown va
      match ← uva2ka d (va0.toNat / pgSize) with
      | none => return -1
      | some pa0 =>
        let n := min (pgSize - (va - va0).toNat) buf.length
        modify fun m => m.store pa0 (va - va0).toNat (buf.take n)
        copyoutLoop d fuel (va0 + BitVec.ofNat 32 pgSize) (buf.drop n)

def copyout (d : PageDir) (va : Word) (p : List Byte) : PhysM ℤ := copyoutLoop d p.length va p

/-! ### Addresses -/

/-- The page of an address. -/
def pageOf (a : Word) : ℕ := a.toNat / pgSize

/-- The place of an address in its page. -/
def offsetOf (a : Word) : ℕ := a.toNat % pgSize

/-- The frame of page `i`, if programs can use it. -/
def PageDir.userFrame (d : PageDir) (i : ℕ) : Option Frame :=
  ((d.page i).filter (·.user)).map (·.frame)

/-- The loop of `copyout`, where a page without a page table counts as one that programs cannot
use. -/
def copyPages (d : PageDir) : ℕ → Word → List Byte → Phys → ℤ × Phys
  | 0, _, _, m => (0, m)
  | fuel + 1, va, buf, m =>
    if buf.length = 0 then (0, m)
    else
      let va0 := pgRoundDown va
      match d.userFrame (va0.toNat / pgSize) with
      | none => (-1, m)
      | some pa0 =>
        let n := min (pgSize - (va - va0).toNat) buf.length
        copyPages d fuel (va0 + BitVec.ofNat 32 pgSize) (buf.drop n)
          (m.store pa0 (va - va0).toNat (buf.take n))

section Addresses

variable {a b : Word} {k : ℕ}

theorem pgRoundDown_toNat (a : Word) : (pgRoundDown a).toNat = a.toNat / 4096 * 4096 := by
  have hbit : ∀ i : Fin 32, (~~~4095 : Word).getLsbD i = decide (12 ≤ i.val) := by decide
  have hshift : pgRoundDown a = (a >>> 12) <<< 12 := by
    refine eq_of_getLsbD_eq fun i hi => ?_
    rw [pgRoundDown, getLsbD_and, hbit ⟨i, hi⟩, getLsbD_shiftLeft, getLsbD_ushiftRight]
    by_cases h12 : 12 ≤ i
    · simp [hi, h12, show ¬ i < 12 by omega]
    · simp [hi, h12, show i < 12 by omega]
  rw [hshift, toNat_shiftLeft, toNat_ushiftRight, Nat.shiftLeft_eq, Nat.shiftRight_eq_div_pow]
  have := a.isLt
  omega

theorem pgRoundDown_page (a : Word) : (pgRoundDown a).toNat / pgSize = pageOf a := by
  rw [pgRoundDown_toNat, pageOf]
  simp only [pgSize] at *
  omega

theorem sub_pgRoundDown (a : Word) : (a - pgRoundDown a).toNat = offsetOf a := by
  have hr := pgRoundDown_toNat a
  have := a.isLt
  rw [offsetOf, toNat_sub]
  simp only [pgSize] at *
  omega

theorem pgRoundDown_add (a : Word) :
    pgRoundDown a + BitVec.ofNat 32 pgSize = a + BitVec.ofNat 32 (pgSize - offsetOf a) := by
  have hr := pgRoundDown_toNat a
  refine BitVec.eq_of_toNat_eq ?_
  rw [toNat_add, toNat_add, hr, toNat_ofNat, toNat_ofNat, offsetOf]
  simp only [pgSize] at *
  omega

theorem pageOf_add (h : offsetOf a + k < pgSize) : pageOf (a + BitVec.ofNat 32 k) = pageOf a := by
  have := a.isLt
  rw [offsetOf] at h
  rw [pageOf, pageOf, toNat_add, toNat_ofNat]
  simp only [pgSize] at *
  omega

theorem offsetOf_add (h : offsetOf a + k < pgSize) :
    offsetOf (a + BitVec.ofNat 32 k) = offsetOf a + k := by
  have := a.isLt
  rw [offsetOf] at h
  rw [offsetOf, offsetOf, toNat_add, toNat_ofNat]
  simp only [pgSize] at *
  omega

theorem pageOf_lt (a : Word) : pageOf a < nPage := by
  have := a.isLt
  rw [pageOf, nPage_eq]
  simp only [pgSize]
  omega

end Addresses

/-! ### One page -/

section Store

variable {m : Phys} {f g : Frame} {o x : ℕ} {buf : List Byte}

theorem Phys.store_of_lt {k : ℕ} (hk : k < buf.length) :
    m.store f o buf f (o + k) = buf.get ⟨k, hk⟩ := by
  simp [Phys.store, List.getElem?_eq_getElem hk]

theorem Phys.store_of_out (h : g = f → x < o ∨ o + buf.length ≤ x) :
    m.store f o buf g x = m g x := by
  by_cases hg : g = f
  · subst hg
    rw [Phys.store, Function.update_self]
    split_ifs with hx
    · rw [List.getElem?_eq_none (by have := h rfl; omega), Option.getD_none]
    · rfl
  · rw [Phys.store, Function.update_of_ne hg]

end Store

/-! ### All pages -/

variable {d : PageDir} {va : Word} {p : List Byte} {m : Phys}

theorem uva2ka_eq {i : ℕ} (hpte : d.pte i ≠ none) : uva2ka d i m = .ok (d.userFrame i, m) := by
  obtain ⟨e, he⟩ := Option.ne_none_iff_exists'.mp hpte
  simp only [uva2ka, he, PageDir.userFrame, PageDir.page]
  cases hp : e.present <;> cases hu : e.user <;>
    simp [hp, hu, Option.filter_some] <;> rfl

theorem PageDir.userFrame_of_none {i : ℕ} (hpte : d.pte i = none) : d.userFrame i = none := by
  rw [PageDir.userFrame, PageDir.page_of_none hpte]
  rfl

theorem uva2ka_null {i : ℕ} (hpte : d.pte i = none) : uva2ka d i m = .error .nullPointer := by
  rw [uva2ka, hpte]
  rfl

/-- Byte `k` of the range goes to byte `x` of frame `f`. -/
def Target (d : PageDir) (va : Word) (k : ℕ) (f : Frame) (x : ℕ) : Prop :=
  d.userFrame (pageOf (va + BitVec.ofNat 32 k)) = some f ∧ offsetOf (va + BitVec.ofNat 32 k) = x

/-- Programs can use all pages of the range. -/
def Usable (d : PageDir) (va : Word) (len : ℕ) : Prop :=
  ∀ k < len, (d.userFrame (pageOf (va + BitVec.ofNat 32 k))).isSome = true

/-- No two bytes of the range go to the same place. -/
def Distinct (d : PageDir) (va : Word) (len : ℕ) : Prop :=
  ∀ k l f x, k < len → l < len → Target d va k f x → Target d va l f x → k = l

/-- The loop comes to a page without a page table. -/
def Missing (d : PageDir) (va : Word) (len : ℕ) : Prop :=
  ∃ k < len, d.pte (pageOf (va + BitVec.ofNat 32 k)) = none ∧ Usable d va k

/-- What `copyout` has done when it returns `r`. -/
structure Copied (d : PageDir) (va : Word) (p : List Byte) (m : Phys) (r : ℤ) (m' : Phys) :
    Prop where
  result : r = 0 ∨ r = -1
  success : r = 0 ↔ Usable d va p.length
  stored : r = 0 → ∀ k (hk : k < p.length) f x, Target d va k f x → m' f x = p.get ⟨k, hk⟩
  kept : ∀ f x, (∀ k < p.length, ¬ Target d va k f x) → m' f x = m f x

theorem target_iff {f : Frame} (hf : d.userFrame (pageOf va) = some f) {k x : ℕ} {g : Frame}
    (hk : offsetOf va + k < pgSize) : Target d va k g x ↔ g = f ∧ x = offsetOf va + k := by
  rw [Target, pageOf_add hk, offsetOf_add hk, hf, Option.some.injEq]
  exact and_congr eq_comm eq_comm

theorem target_add {f : Frame} {k n x : ℕ} (hn : n ≤ k) :
    Target d (va + BitVec.ofNat 32 n) (k - n) f x ↔ Target d va k f x := by
  have hadd : va + BitVec.ofNat 32 n + BitVec.ofNat 32 (k - n) = va + BitVec.ofNat 32 k := by
    rw [BitVec.add_assoc, ← BitVec.ofNat_add, Nat.add_sub_cancel' hn]
  rw [Target, Target, hadd]

theorem add_ofNat_add (n k : ℕ) :
    va + BitVec.ofNat 32 n + BitVec.ofNat 32 k = va + BitVec.ofNat 32 (n + k) := by
  rw [BitVec.add_assoc, ← BitVec.ofNat_add]

section FirstPage

variable {f : Frame} {n len : ℕ} (hf : d.userFrame (pageOf va) = some f)
  (hoff : offsetOf va + n ≤ pgSize)

include hf hoff

theorem usable_add (hn : n ≤ len) :
    Usable d va len ↔ Usable d (va + BitVec.ofNat 32 n) (len - n) := by
  constructor
  · intro h k hk
    rw [add_ofNat_add]
    exact h (n + k) (by omega)
  · intro h k hk
    by_cases hkn : k < n
    · rw [pageOf_add (by omega), hf]
      rfl
    · have hrest := h (k - n) (by omega)
      rwa [add_ofNat_add, Nat.add_sub_cancel' (by omega)] at hrest

theorem missing_add (hn : n ≤ len) :
    Missing d va len ↔ Missing d (va + BitVec.ofNat 32 n) (len - n) := by
  constructor
  · rintro ⟨k, hk, hnone, husable⟩
    by_cases hkn : k < n
    · rw [pageOf_add (by omega)] at hnone
      rw [PageDir.userFrame_of_none hnone] at hf
      cases hf
    · refine ⟨k - n, by omega, ?_, (usable_add hf hoff (by omega)).mp husable⟩
      rwa [add_ofNat_add, Nat.add_sub_cancel' (by omega)]
  · rintro ⟨k, hk, hnone, husable⟩
    rw [add_ofNat_add] at hnone
    refine ⟨n + k, by omega, hnone, (usable_add hf hoff (by omega)).mpr ?_⟩
    rwa [Nat.add_sub_cancel_left]

end FirstPage

theorem Distinct.add {len : ℕ} (h : Distinct d va len) (n : ℕ) :
    Distinct d (va + BitVec.ofNat 32 n) (len - n) := by
  intro k l f x hk hl hkt hlt
  rw [← Nat.add_sub_cancel_left (n := n) (m := k), target_add (Nat.le_add_right n k)] at hkt
  rw [← Nat.add_sub_cancel_left (n := n) (m := l), target_add (Nat.le_add_right n l)] at hlt
  have := h _ _ f x (by omega) (by omega) hkt hlt
  omega

theorem Copied.nil (va : Word) (m : Phys) : Copied d va [] m 0 m where
  result := .inl rfl
  success := by simp [Usable]
  stored _ k hk := absurd hk (Nat.not_lt_zero k)
  kept _ _ _ := rfl

theorem Copied.step {f : Frame} {n : ℕ} {r : ℤ} {m' : Phys}
    (hf : d.userFrame (pageOf va) = some f) (hoff : offsetOf va + n ≤ pgSize) (hn : n ≤ p.length)
    (hdist : Usable d va p.length → Distinct d va p.length)
    (h : Copied d (va + BitVec.ofNat 32 n) (p.drop n) (m.store f (offsetOf va) (p.take n)) r m') :
    Copied d va p m r m' where
  result := h.result
  success := by rw [h.success, List.length_drop, usable_add hf hoff hn]
  stored hr k hk g x ht := by
    have husable : Usable d va p.length := by
      rw [usable_add hf hoff hn, ← List.length_drop]
      exact h.success.mp hr
    by_cases hkn : k < n
    · obtain ⟨rfl, rfl⟩ := (target_iff hf (by omega)).mp ht
      -- the later bytes go elsewhere
      rw [h.kept g _ fun l hl hl' => ?_]
      · rw [Phys.store_of_lt (by rw [List.length_take]; omega)]
        simp
      · rw [List.length_drop] at hl
        have hadd : Target d va (n + l) g (offsetOf va + k) := by
          rw [← target_add (Nat.le_add_right n l), Nat.add_sub_cancel_left]
          exact hl'
        have := hdist husable k (n + l) _ _ hk (by omega) ht hadd
        omega
    · have hrest := h.stored hr (k - n) (by rw [List.length_drop]; omega) g x
        ((target_add (by omega)).mpr ht)
      rw [hrest]
      simp only [List.get_eq_getElem, List.getElem_drop]
      congr 1
      omega
  kept g x hout := by
    rw [h.kept g x fun k hk ht => ?_]
    · refine Phys.store_of_out fun hg => ?_
      rw [List.length_take, min_eq_left hn]
      by_contra hcon
      refine hout (x - offsetOf va) (by omega) ((target_iff hf (by omega)).mpr ⟨hg, by omega⟩)
    · rw [List.length_drop] at hk
      rw [← Nat.add_sub_cancel_left (n := n) (m := k), target_add (Nat.le_add_right n k)] at ht
      exact hout (n + k) (by omega) ht

theorem copyPages_copied {fuel : ℕ} (hfuel : p.length ≤ fuel)
    (hdist : Usable d va p.length → Distinct d va p.length) :
    Copied d va p m (copyPages d fuel va p m).1 (copyPages d fuel va p m).2 := by
  induction fuel generalizing va p m with
  | zero =>
    obtain rfl := List.eq_nil_of_length_eq_zero (Nat.le_zero.mp hfuel)
    exact .nil va m
  | succ fuel ih =>
    by_cases hnil : p.length = 0
    · obtain rfl := List.eq_nil_of_length_eq_zero hnil
      exact .nil va m
    rw [copyPages, if_neg hnil]
    simp only [pgRoundDown_page]
    cases hf : d.userFrame (pageOf va) with
    | none =>
      refine ⟨.inr rfl, ⟨by simp, fun hall => ?_⟩, by simp, fun _ _ _ => rfl⟩
      have hpage := hall 0 (by omega)
      rw [BitVec.add_zero, hf] at hpage
      exact absurd hpage Bool.false_ne_true
    | some f =>
      simp only [sub_pgRoundDown, pgRoundDown_add]
      generalize hn : min (pgSize - offsetOf va) p.length = n
      have hoff : offsetOf va < pgSize := Nat.mod_lt _ (by decide)
      have hdrop : (p.drop n).length = p.length - n := List.length_drop
      refine Copied.step (n := n) hf (by omega) (by omega) hdist ?_
      by_cases hlast : p.length ≤ pgSize - offsetOf va
      · -- this was the last page
        rw [List.drop_eq_nil_of_le (by omega)]
        cases fuel <;> exact .nil _ _
      · obtain rfl : n = pgSize - offsetOf va := by omega
        refine ih (by omega) fun husable => ?_
        rw [hdrop] at husable ⊢
        exact (hdist ((usable_add hf (by omega) (by omega)).mpr husable)).add _

/-- The loop follows a null pointer exactly if it comes to a page without a page table. -/
theorem copyoutLoop_eq {fuel : ℕ} (hfuel : p.length ≤ fuel) :
    (Missing d va p.length → copyoutLoop d fuel va p m = .error .nullPointer) ∧
    (¬ Missing d va p.length → copyoutLoop d fuel va p m = .ok (copyPages d fuel va p m)) := by
  induction fuel generalizing va p m with
  | zero => exact ⟨fun ⟨k, hk, _⟩ => by omega, fun _ => rfl⟩
  | succ fuel ih =>
    rw [copyoutLoop, copyPages]
    by_cases hnil : p.length = 0
    · rw [if_pos hnil, if_pos hnil]
      exact ⟨fun ⟨k, hk, _⟩ => by omega, fun _ => rfl⟩
    rw [if_neg hnil, if_neg hnil]
    simp only [pgRoundDown_page, bind, StateT.bind, Except.bind]
    by_cases hpte : d.pte (pageOf va) = none
    · rw [uva2ka_null hpte]
      refine ⟨fun _ => rfl, fun hnot => absurd ⟨0, by omega, ?_, fun j hj => by omega⟩ hnot⟩
      rwa [BitVec.add_zero]
    · rw [uva2ka_eq hpte]
      cases hf : d.userFrame (pageOf va) with
      | none =>
        refine ⟨fun ⟨k, hk, hnone, husable⟩ => ?_, fun _ => rfl⟩
        cases k with
        | zero => exact absurd (by rwa [BitVec.add_zero] at hnone) hpte
        | succ k =>
          have hzero := husable 0 (Nat.succ_pos k)
          rw [BitVec.add_zero, hf] at hzero
          exact absurd hzero Bool.false_ne_true
      | some f =>
        simp only [sub_pgRoundDown, pgRoundDown_add]
        generalize hn : min (pgSize - offsetOf va) p.length = n
        have hoff : offsetOf va < pgSize := Nat.mod_lt _ (by decide)
        have hdrop : (p.drop n).length = p.length - n := List.length_drop
        have hloop : (Missing d (va + BitVec.ofNat 32 n) _ → _) ∧ _ :=
          ih (p := p.drop n) (m := m.store f (offsetOf va) (p.take n)) (by omega)
        rw [hdrop, ← missing_add hf (by omega) (by omega)] at hloop
        by_cases hlast : p.length ≤ pgSize - offsetOf va
        · -- this was the last page
          have hnone : ¬ Missing d va p.length := by
            rw [missing_add hf (n := n) (by omega) (by omega)]
            rintro ⟨k, hk, -⟩
            omega
          refine ⟨fun h => absurd h hnone, fun _ => ?_⟩
          rw [List.drop_eq_nil_of_le (by omega)]
          cases fuel <;> rfl
        · obtain rfl : n = pgSize - offsetOf va := by omega
          exact hloop

/-- `copyout` returns 0 if and only if programs can use all pages of the range, and then the bytes
are there; in any case nothing else is modified. This holds for all strings of a length if and only
if the first page of the range that programs cannot use has a page table, or there is no such page
and no two bytes go to the same place. -/
theorem copyout_exact (d : PageDir) (va : Word) (len : ℕ) :
    (∀ p : List Byte, p.length = len → ∀ m, ∃ r m', copyout d va p m = .ok (r, m') ∧
      Copied d va p m r m') ↔
    (∃ k < len, Usable d va k ∧ d.userFrame (pageOf (va + BitVec.ofNat 32 k)) = none ∧
      d.pte (pageOf (va + BitVec.ofNat 32 k)) ≠ none) ∨
    Usable d va len ∧ Distinct d va len := by
  constructor
  · intro h
    by_cases husable : Usable d va len
    · refine .inr ⟨husable, fun k l f x hk hl hkt hlt => ?_⟩
      by_contra hkl
      -- two different bytes would be in the same place
      obtain ⟨p, hp⟩ : ∃ p : List Byte, p = (List.range len).map fun i => if i = l then 1 else 0 :=
        ⟨_, rfl⟩
      have hlen : p.length = len := by simp [hp]
      obtain ⟨r, m', -, hcopied⟩ := h p hlen fun _ _ => 0
      have hr := hcopied.success.mpr (hlen ▸ husable)
      have hk₀ := hcopied.stored hr k (by omega) f x hkt
      have hl₀ := hcopied.stored hr l (by omega) f x hlt
      rw [hk₀] at hl₀
      simp [hp, hkl] at hl₀
    · have hex : ∃ k, k < len ∧ d.userFrame (pageOf (va + BitVec.ofNat 32 k)) = none := by
        simpa [Usable] using husable
      classical
      obtain ⟨hlt, hnone⟩ := Nat.find_spec hex
      have hfirst : Usable d va (Nat.find hex) := fun j hj =>
        Option.isSome_iff_ne_none.mpr fun hj' => Nat.find_min hex hj ⟨by omega, hj'⟩
      refine .inl ⟨_, hlt, hfirst, hnone, fun hpte => ?_⟩
      obtain ⟨r, m', hok, -⟩ := h (List.replicate len 0) List.length_replicate fun _ _ => 0
      have hmissing : Missing d va (List.replicate len (0 : Byte)).length := by
        rw [List.length_replicate]
        exact ⟨_, hlt, hpte, hfirst⟩
      cases hok.symm.trans ((copyoutLoop_eq le_rfl).1 hmissing)
  · rintro h p rfl m
    have hnot : ¬ Missing d va p.length := by
      rintro ⟨j, hj, hnone, hfirst⟩
      have hframe := congrArg Option.isSome (PageDir.userFrame_of_none hnone)
      obtain ⟨k, hk, husable, huser, hpte⟩ | ⟨husable, -⟩ := h
      · rcases Nat.lt_trichotomy j k with hlt | rfl | hgt
        · exact absurd (hframe.symm.trans (husable j hlt)) Bool.false_ne_true
        · exact hpte hnone
        · have := hfirst k hgt
          rw [huser] at this
          exact absurd this Bool.false_ne_true
      · exact absurd (hframe.symm.trans (husable j hj)) Bool.false_ne_true
    refine ⟨_, _, (copyoutLoop_eq le_rfl).2 hnot, copyPages_copied le_rfl fun husable => ?_⟩
    obtain ⟨k, hk, -, huser, -⟩ | ⟨-, hdist⟩ := h
    · have := husable k hk
      rw [huser] at this
      exact absurd this Bool.false_ne_true
    · exact hdist

theorem onePage_userFrame {i : ℕ} (hi : i < nPage) :
    onePage.userFrame i = if i = 0 then some (Fin.ofNat nPage 1) else none := by
  rw [PageDir.userFrame, onePage_page hi]
  split_ifs <;> rfl

/-- The last four bytes of the page. -/
theorem copyout_exact_onePage : ∃ r m',
    copyout onePage 4092 [1, 2, 3, 4] (fun _ _ => 0) = .ok (r, m') ∧
      Copied onePage 4092 [1, 2, 3, 4] (fun _ _ => 0) r m' := by
  have hoff : offsetOf 4092 = 4092 := by decide
  have hf : onePage.userFrame (pageOf 4092) = some (Fin.ofNat nPage 1) := by
    rw [onePage_userFrame (pageOf_lt _), if_pos (by decide)]
  have hin {k : ℕ} (hk : k < 4) : offsetOf 4092 + k < pgSize := by
    simp only [hoff, pgSize]
    omega
  refine (copyout_exact onePage 4092 4).mpr (.inr ⟨fun k hk => ?_, fun k l f x hk hl hkt hlt => ?_⟩)
    _ rfl _
  · rw [pageOf_add (hin hk), hf]
    rfl
  · have hkx := ((target_iff hf (hin hk)).mp hkt).2
    have hlx := ((target_iff hf (hin hl)).mp hlt).2
    omega

theorem copyout_of_none (hp : p ≠ []) (h : d.pte (pageOf va) = none) :
    copyout d va p m = .error .nullPointer := by
  obtain ⟨b, bs, rfl⟩ := List.exists_cons_of_ne_nil hp
  rw [copyout, List.length_cons, copyoutLoop, if_neg (by simp), pgRoundDown_page]
  simp only [bind, StateT.bind, uva2ka_null h]
  rfl

/-- There is no page table for the address `0xFD800000`. This is where the stack pointer of `exec`
is when the new process has three pages and a string of 40 MB has been pushed. -/
theorem copyout_null :
    copyout onePage 0xFD800000 [0] (fun _ _ => 0) = .error .nullPointer := by
  refine copyout_of_none (by simp) ?_
  have hpage : pageOf 0xFD800000 = 0xFD800 := by decide
  have hpd : pdx 0xFD800 ≠ 0 := by
    rw [Ne, Fin.ext_iff, pdx_val, Fin.val_zero]
    decide
  rw [hpage]
  simp [PageDir.pte, onePage, hpd]

end Dave.Memory
