import Mathlib.Data.List.Basic
import Mathlib.Data.Nat.ModEq
import Mathlib.Logic.Function.Basic
import Mathlib.Tactic.Common

/-!
# Ring buffers with free-running counters

A ring buffer of `size` entries with a read and a write counter of `w` bits that are only ever
incremented and wrap around at `2 ^ w`. Entry `n` of the stream is at index `n % size`. The buffer
is a queue as long as it never holds more than `size` entries and `size` divides `2 ^ w`, so that
the index wraps around together with the counter.
-/

namespace Dave.Ring

variable {w size : ℕ} [NeZero size] {α : Type*}

/-- The index of entry `n`. -/
def index (size : ℕ) [NeZero size] (n : BitVec w) : Fin size := Fin.ofNat size n.toNat

/-- The entries between the read counter `r` and the write counter `n`. -/
def contents (data : Fin size → α) (r n : BitVec w) : List α :=
  (List.range (n - r).toNat).map fun i => data (index size (r + BitVec.ofNat w i))

@[simp] theorem contents_self (data : Fin size → α) (r : BitVec w) : contents data r r = [] := by
  simp [contents]

theorem add_sub_toNat (r n : BitVec w) : r + BitVec.ofNat w (n - r).toNat = n := by
  rw [BitVec.ofNat_toNat, BitVec.setWidth_eq]
  exact (BitVec.add_comm _ _).trans (BitVec.sub_add_cancel n r)

variable {r n : BitVec w}

theorem toNat_add_one_sub (h : (n - r).toNat + 1 < 2 ^ w) :
    (n + 1 - r).toNat = (n - r).toNat + 1 := by
  have h1 : n + 1 - r = n - r + BitVec.ofNat w 1 := by
    rw [BitVec.sub_eq_add_neg, BitVec.sub_eq_add_neg, BitVec.add_assoc, BitVec.add_assoc,
      BitVec.add_comm (-r)]
    rfl
  rw [h1, BitVec.toNat_add, BitVec.toNat_ofNat, Nat.add_mod_mod, Nat.mod_eq_of_lt h]

theorem toNat_sub_add_one (h : r ≠ n) : (n - r).toNat = (n - (r + 1)).toNat + 1 := by
  have hpos : (n - r).toNat ≠ 0 := by
    intro h0
    apply h
    have hn := add_sub_toNat r n
    rwa [h0, BitVec.add_zero] at hn
  have h1 : n - (r + 1) = n - r - 1 := by
    rw [BitVec.sub_eq_add_neg, BitVec.sub_eq_add_neg, BitVec.sub_eq_add_neg, BitVec.neg_add,
      BitVec.sub_eq_add_neg, BitVec.add_assoc]
  have hlt := (n - r).isLt
  have hw : 1 < 2 ^ w := by omega
  have hone : (1 : BitVec w).toNat = 1 := Nat.mod_eq_of_lt hw
  have hle : (1 : BitVec w) ≤ n - r := by
    rw [BitVec.le_def, hone]
    omega
  rw [h1, BitVec.toNat_sub_of_le hle, hone]
  omega

/-- Fewer than `size` entries apart, two entries have different indices. -/
theorem index_add_ne (hsize : size ∣ 2 ^ w) (r : BitVec w) {i j : ℕ} (hij : i < j) (hj : j < size) :
    index size (r + BitVec.ofNat w i) ≠ index size (r + BitVec.ofNat w j) := by
  intro h
  have hval := congrArg Fin.val h
  simp only [index, Fin.val_ofNat, BitVec.toNat_add, BitVec.toNat_ofNat, Nat.add_mod_mod,
    Nat.mod_mod_of_dvd _ hsize] at hval
  have hmod : i ≡ j [MOD size] := Nat.ModEq.add_left_cancel' r.toNat hval
  exact absurd (hmod.eq_of_lt_of_lt (hij.trans hj) hj) hij.ne

/-- The entries up to a counter in between, and those behind it. -/
theorem contents_append (data : Fin size → α) {m : BitVec w}
    (h : (n - r).toNat = (m - r).toNat + (n - m).toNat) :
    contents data r n = contents data r m ++ contents data m n := by
  rw [contents, h, List.range_add, List.map_append, List.map_map]
  congr 1
  refine List.map_congr_left fun i _ => ?_
  rw [Function.comp_apply, ← BitVec.ofNat_add_ofNat, ← BitVec.add_assoc, add_sub_toNat]

/-- Writing an entry appends it. -/
theorem contents_push (hsize : size ∣ 2 ^ w) (data : Fin size → α) (a : α)
    (h : (n - r).toNat < size) (hw : size < 2 ^ w) :
    contents (Function.update data (index size n) a) r (n + 1) = contents data r n ++ [a] := by
  rw [contents, toNat_add_one_sub (by omega), List.range_succ, List.map_append, List.map_singleton,
    add_sub_toNat, Function.update_self, contents]
  congr 1
  refine List.map_congr_left fun i hi => ?_
  have hi' : i < (n - r).toNat := List.mem_range.mp hi
  refine Function.update_of_ne ?_ _ _
  have hne := index_add_ne hsize r hi' h
  rwa [add_sub_toNat] at hne

/-- Reading an entry removes the first one. -/
theorem contents_pop (data : Fin size → α) (h : r ≠ n) :
    contents data r n = data (index size r) :: contents data (r + 1) n := by
  rw [contents, toNat_sub_add_one h, List.range_succ_eq_map, List.map_cons, List.map_map,
    BitVec.add_zero, contents]
  congr 1
  refine List.map_congr_left fun i _ => ?_
  rw [Function.comp_apply, BitVec.add_assoc, Nat.succ_eq_add_one, Nat.add_comm i 1,
    ← BitVec.ofNat_add_ofNat]
  rfl

omit [NeZero size] in
/-- A buffer of fewer than `2 ^ w` entries is full when the counters are `size` apart. -/
theorem eq_add_iff (hw : size < 2 ^ w) : n = r + BitVec.ofNat w size ↔ (n - r).toNat = size := by
  constructor
  · rintro rfl
    rw [BitVec.add_comm, BitVec.add_sub_cancel, BitVec.toNat_ofNat, Nat.mod_eq_of_lt hw]
  · intro h
    rw [← h, add_sub_toNat]

end Dave.Ring
