import Dave.Block

/-!
# Moving memory

The kernel and the library of the programs each have a `memmove`. That of the kernel chooses the
direction in which it copies. That of the library always copies upwards, and so reads bytes that it
has already written if the destination begins inside the source.
-/

namespace Dave

open Function

namespace Memmove

/-- The memory that the code sees. -/
abbrev Ram : Type := Word → Byte

/-- `while(n-- > 0) *d++ = *s++;` -/
def copyUp : ℕ → Word → Word → Ram → Ram
  | 0, _, _, m => m
  | n + 1, d, s, m => copyUp n (d + 1) (s + 1) (update m d (m s))

/-- `while(n-- > 0) *--d = *--s;` -/
def copyDown : ℕ → Word → Word → Ram → Ram
  | 0, _, _, m => m
  | n + 1, d, s, m => copyDown n (d - 1) (s - 1) (update m (d - 1) (m (s - 1)))

/-- The memory `m`, where the `n` bytes from `dst` on are those that were at `src`. -/
def moved (dst src : Word) (n : ℕ) (m : Ram) (a : Word) : Byte :=
  if dst.toNat ≤ a.toNat ∧ a.toNat < dst.toNat + n then m (src + (a - dst)) else m a

end Memmove

open Memmove

/-- `memmove` of the library, whose `n` is an `int`. -/
def Ulib.memmove (vdst vsrc n : Word) (m : Ram) : Ram := copyUp n.toInt.toNat vdst vsrc m

/-- `memmove` of the kernel, whose `n` is a `uint`. -/
def Runtime.memmove (dst src n : Word) (m : Ram) : Ram :=
  if src < dst ∧ dst < src + n then copyDown n.toNat (dst + n) (src + n) m
  else copyUp n.toNat dst src m

namespace Memmove

variable {d s a src dst : Word} {n : ℕ} {m : Ram}

theorem toNat_succ (h : a.toNat + 1 < 2 ^ 32) : (a + 1).toNat = a.toNat + 1 := by
  bv_omega

theorem moved_zero (d s : Word) (m : Ram) : moved d s 0 m = m := by
  funext a
  rw [moved, if_neg (by omega)]

theorem moved_succ (hd : d.toNat + (n + 1) ≤ 2 ^ 32)
    (hapart : ∀ k < n, s + 1 + BitVec.ofNat 32 k ≠ d) :
    moved (d + 1) (s + 1) n (update m d (m s)) = moved d s (n + 1) m := by
  funext a
  rw [moved, moved]
  by_cases ha : a = d
  · subst ha
    have hout : ¬ ((a + 1).toNat ≤ a.toNat ∧ a.toNat < (a + 1).toNat + n) := by
      by_cases hn : n = 0
      · omega
      · rw [toNat_succ (by omega)]
        omega
    rw [if_neg hout, if_pos (by omega), update_self, BitVec.sub_self, BitVec.add_zero]
  · have hne : a.toNat ≠ d.toNat := fun h => ha (BitVec.eq_of_toNat_eq h)
    by_cases hin : d.toNat ≤ a.toNat ∧ a.toNat < d.toNat + (n + 1)
    · have hd' := toNat_succ (a := d) (by omega)
      have hassoc : s + 1 + (a - (d + 1)) = s + (a - d) := by bv_omega
      have hread : s + (a - d) ≠ d := by
        have hk := hapart (a.toNat - (d.toNat + 1)) (by omega)
        rw [← hassoc]
        convert hk using 2
        bv_omega
      rw [if_pos (by omega), if_pos hin, hassoc, update_of_ne hread]
    · have hout : ¬ ((d + 1).toNat ≤ a.toNat ∧ a.toNat < (d + 1).toNat + n) := by
        by_cases hn : n = 0
        · omega
        · rw [toNat_succ (by omega)]
          omega
      rw [if_neg hout, if_neg hin, update_of_ne ha]

theorem moved_succ_last (hd : d.toNat + (n + 1) ≤ 2 ^ 32)
    (hapart : ∀ k < n, s + BitVec.ofNat 32 k ≠ d + BitVec.ofNat 32 n) :
    moved d s n (update m (d + BitVec.ofNat 32 n) (m (s + BitVec.ofNat 32 n))) =
      moved d s (n + 1) m := by
  funext a
  rw [moved, moved]
  have hlast : (d + BitVec.ofNat 32 n).toNat = d.toNat + n := by bv_omega
  by_cases ha : a = d + BitVec.ofNat 32 n
  · subst ha
    have hsub : s + (d + BitVec.ofNat 32 n - d) = s + BitVec.ofNat 32 n := by bv_omega
    rw [if_neg (by omega), if_pos (by omega), update_self, hsub]
  · have hne : a.toNat ≠ d.toNat + n := fun h => ha (BitVec.eq_of_toNat_eq (h.trans hlast.symm))
    by_cases hin : d.toNat ≤ a.toNat ∧ a.toNat < d.toNat + n
    · have hread : s + (a - d) ≠ d + BitVec.ofNat 32 n := by
        have hk := hapart (a.toNat - d.toNat) (by omega)
        convert hk using 2
        bv_omega
      rw [if_pos hin, if_pos (by omega), update_of_ne hread]
    · rw [if_neg hin, if_neg (by omega), update_of_ne ha]

theorem copyUp_eq (hd : d.toNat + n ≤ 2 ^ 32) (hs : s.toNat + n ≤ 2 ^ 32)
    (hapart : ¬ (s.toNat < d.toNat ∧ d.toNat < s.toNat + n)) : copyUp n d s m = moved d s n m := by
  induction n generalizing d s m with
  | zero => rw [copyUp, moved_zero]
  | succ n ih =>
    have hread (k : ℕ) (hk : k < n) : s + 1 + BitVec.ofNat 32 k ≠ d := by bv_omega
    rw [copyUp, ← moved_succ hd hread]
    by_cases hn : n = 0
    · rw [hn, copyUp, moved_zero]
    · have hd' := toNat_succ (a := d) (by omega)
      have hs' := toNat_succ (a := s) (by omega)
      exact ih (by omega) (by omega) (by omega)

theorem copyDown_eq (hd : d.toNat + n ≤ 2 ^ 32) (hlt : s.toNat < d.toNat) :
    copyDown n (d + BitVec.ofNat 32 n) (s + BitVec.ofNat 32 n) m = moved d s n m := by
  induction n generalizing m with
  | zero => rw [copyDown, moved_zero]
  | succ n ih =>
    have hpred (a : Word) : a + BitVec.ofNat 32 (n + 1) - 1 = a + BitVec.ofNat 32 n := by bv_omega
    have hread (k : ℕ) (hk : k < n) : s + BitVec.ofNat 32 k ≠ d + BitVec.ofNat 32 n := by bv_omega
    rw [copyDown, hpred, hpred, ih (by omega), moved_succ_last hd hread]

theorem runtime_memmove_eq {n : Word} (hdst : dst.toNat + n.toNat ≤ 2 ^ 32)
    (hsrc : src.toNat + n.toNat ≤ 2 ^ 32) :
    Runtime.memmove dst src n m = moved dst src n.toNat m := by
  rw [Runtime.memmove]
  split_ifs with hover
  · have hdown := copyDown_eq (m := m) hdst (BitVec.lt_def.mp hover.1)
    rwa [BitVec.ofNat_toNat, BitVec.setWidth_eq] at hdown
  · refine copyUp_eq hdst hsrc fun hcon => hover ⟨BitVec.lt_def.mpr hcon.1, ?_⟩
    -- the source ends below the top of memory, since the destination is above it
    bv_omega

/-- Copying upwards carries along a window of zeros that reaches up to the destination. -/
theorem copyUp_window (hlt : s.toNat < d.toNat) (hd : d.toNat + n ≤ 2 ^ 32)
    (hm : ∀ a : Word, s.toNat ≤ a.toNat → a.toNat < d.toNat → m a = 0)
    (hs : s.toNat + n ≤ a.toNat) (ha : a.toNat < d.toNat + n) : copyUp n d s m a = 0 := by
  induction n generalizing d s m with
  | zero => exact hm a hs ha
  | succ n ih =>
    have hm' (b : Word) (hb : s.toNat < b.toNat) (hb' : b.toNat ≤ d.toNat) :
        update m d (m s) b = 0 := by
      by_cases heq : b = d
      · rw [heq, update_self]
        exact hm s le_rfl hlt
      · rw [update_of_ne heq]
        exact hm b hb.le (lt_of_le_of_ne hb' fun h => heq (BitVec.eq_of_toNat_eq h))
    rw [copyUp]
    by_cases hn : n = 0
    · subst hn
      exact hm' a (by omega) (by omega)
    · have hd' := toNat_succ (a := d) (by omega)
      have hs' := toNat_succ (a := s) (by omega)
      exact ih (by omega) (by omega) (fun b hb hb' => hm' b (by omega) (by omega)) (by omega)
        (by omega)

/-- The kernel moves the bytes whatever the ranges are, and the library does exactly if the
destination does not begin inside the source. -/
theorem memmove_agree (dst src n : Word) (hn : 0 ≤ n.toInt)
    (hdst : dst.toNat + n.toNat ≤ 2 ^ 32) (hsrc : src.toNat + n.toNat ≤ 2 ^ 32) :
    (∀ m, Runtime.memmove dst src n m = moved dst src n.toNat m) ∧
    ((∀ m, Ulib.memmove dst src n m = moved dst src n.toNat m) ↔
      ¬ (src.toNat < dst.toNat ∧ dst.toNat < src.toNat + n.toNat)) := by
  have hlen : n.toInt.toNat = n.toNat := by
    have hlt := n.isLt
    rw [BitVec.toInt_eq_toNat_cond] at hn ⊢
    split_ifs at hn ⊢ <;> omega
  refine ⟨fun m => runtime_memmove_eq hdst hsrc, fun hmoves ⟨hlt, hover⟩ => ?_, fun hapart m => ?_⟩
  · -- the last byte of the source lies in the destination, and is overwritten with a zero
    let m : Ram := fun a => if a < dst then 0 else 1
    obtain ⟨last, hdef⟩ : ∃ last : Word, last = dst + (n - 1) := ⟨_, rfl⟩
    have hlast : last.toNat = dst.toNat + n.toNat - 1 := by bv_omega
    have hzero : Ulib.memmove dst src n m last = 0 := by
      rw [Ulib.memmove, hlen]
      exact copyUp_window hlt hdst (fun a _ ha => if_pos (BitVec.lt_def.mpr ha)) (by omega)
        (by omega)
    have hone : moved dst src n.toNat m last = 1 := by
      rw [moved, if_pos (by omega)]
      exact if_neg (by bv_omega)
    rw [hmoves, hone] at hzero
    exact absurd hzero (by decide)
  · rw [Ulib.memmove, hlen, copyUp_eq hdst hsrc hapart]

/-- Four bytes are moved down by two. -/
theorem memmove_agree_down : (∀ m, Runtime.memmove 8 10 4 m = moved 8 10 4 m) ∧
    ∀ m, Ulib.memmove 8 10 4 m = moved 8 10 4 m := by
  obtain ⟨hkernel, huser⟩ := memmove_agree 8 10 4 (by decide) (by decide) (by decide)
  exact ⟨hkernel, huser.mpr (by decide)⟩

/-- Two bytes are moved up by one: the library copies the first of them twice. -/
theorem memmove_overlap :
    Ulib.memmove 1 0 2 (fun a => a.setWidth 8) 2 = 0 ∧
      Runtime.memmove 1 0 2 (fun a => a.setWidth 8) 2 = 1 ∧
      moved 1 0 2 (fun a => a.setWidth 8) 2 = 1 := by
  decide

end Memmove

end Dave
