import Dave.Fs.Contents

/-!
# Reading and writing bytes

The bytes of a file are those of its blocks, one block after the other; past the blocks of the file
they are zero. This file proves what the loops of `readi` and `writei` do to them.
-/

namespace Dave.Fs

open Nat

variable {P : Type} {E : Panic → Prop} {s s' s'' : State P} {ip : Slot}

/-! ### The bytes of a block -/

theorem byte_setBytes (b : Block) {o k : ℕ} {src : List Byte} (h : o + src.length ≤ bSize) :
    (Block.setBytes b o src).byte k =
      if o ≤ k ∧ k < o + src.length then src.getD (k - o) 0 else b.byte k := by
  have hroom : 8 * (o + src.length) ≤ 8 * bSize := mul_le_mul_left _ h
  rw [Block.setBytes, Block.byte, BitField.extractLsb'_setArray b o src hroom]
  split_ifs with hk
  · have hlt : k - o < src.length := by omega
    simp [hlt]
  · rfl

/-! ### The bytes of a file -/

/-- The `n`-th byte of inode `i`. -/
def View.byte (v : View) (i n : ℕ) : Byte := ((v.blk i (n / bSize)).getD 0).byte (n % bSize)

/-- The number of blocks that hold `n` bytes. -/
def nblk (n : ℕ) : ℕ := (n + (bSize - 1)) / bSize

theorem nblk_le_iff {n k : ℕ} : nblk n ≤ k ↔ n ≤ k * bSize := by
  simp only [nblk, bSize]
  omega

theorem lt_nblk_iff {n k : ℕ} : k < nblk n ↔ k * bSize < n := by
  simp only [nblk, bSize]
  omega

theorem nblk_mono {m n : ℕ} (h : m ≤ n) : nblk m ≤ nblk n :=
  nblk_le_iff.mpr (h.trans (nblk_le_iff.mp (le_refl _)))

theorem bytes_eq_map {v : View} {i off m : ℕ} {x : Block} (hblk : v.blk i (off / bSize) = some x)
    (hm : m ≤ bSize - off % bSize) :
    Block.bytes x (off % bSize) m = (List.range' off m).map (v.byte i) := by
  refine List.ext_getElem (by simp [Block.bytes]) fun k hk _ => ?_
  simp only [Block.bytes, List.length_map, List.length_range'] at hk
  simp only [Block.bytes, List.getElem_map, List.getElem_range', one_mul, View.byte]
  have hdiv : (off + k) / bSize = off / bSize := by
    simp only [bSize] at hm ⊢
    omega
  have hmod : (off + k) % bSize = off % bSize + k := by
    simp only [bSize] at hm ⊢
    omega
  rw [hdiv, hmod, hblk, Option.getD_some]

theorem readLoop_eq {nb : ℕ} (h : Held s ip nb) {fuel off n : ℕ} (hfuel : n ≤ fuel)
    (hn : off + n ≤ nb * bSize) :
    readLoop ip fuel off n s =
      .ok ((List.range' off n).map ((s.focus ip).byte (s.icache ip).inum), s) := by
  induction fuel generalizing off n with
  | zero =>
    obtain rfl : n = 0 := le_zero.mp hfuel
    rfl
  | succ fuel ih =>
    by_cases hzero : n = 0
    · subst hzero
      rfl
    have hm : 0 < bSize - off % bSize := Nat.sub_pos_of_lt (Nat.mod_lt _ (by decide))
    have hlt : off / bSize < nb := by
      rw [Nat.div_lt_iff_lt_mul (by decide)]
      omega
    obtain ⟨a, ha⟩ := h.mapped.exists_block hlt
    have hbmap := bmap_of_place h.toWork (hlt.trans_le h.mapped.le) ha
    have hblk : (s.focus ip).blk (s.icache ip).inum (off / bSize) = some (s.disk a) := by
      rw [View.blk, ha, Option.map_some, h.data_eq ha]
    have hfuel' : n - min n (bSize - off % bSize) ≤ fuel := by omega
    have hend : off + min n (bSize - off % bSize) + (n - min n (bSize - off % bSize)) ≤
        nb * bSize := by omega
    have hrest := ih hfuel' hend
    simp only [readLoop, hzero, ↓reduceIte, bind, StateT.bind, hbmap, Except.bind, bread, get,
      getThe, MonadStateOf.get, StateT.get, pure, Except.pure, pure_eq_ok, hrest]
    rw [bytes_eq_map hblk (Nat.min_le_right ..), ← List.map_append,
      List.range'_append_1, Nat.add_sub_cancel' (Nat.min_le_left ..)]

/-! ### Writing -/

theorem focus_write (h : Work s ip) {p : ℕ × ℕ} {a : ℕ} (ha : (s.focus ip).place p = some a)
    (x : Block) (act : Action) :
    ((s.setBlock a x).record act).focus ip = (s.focus ip).setData a x := by
  rw [focus_record, State.focus, State.setBlock_icache, view_setData h.ordered (h.owned.isData ha)]
  rfl

theorem Grown.write {nb bn a : ℕ} (h : Held s ip nb)
    (ha : (s.focus ip).place ((s.icache ip).inum, fileIdx bn) = some a) (x : Block) (act : Action) :
    Grown ip s ((s.setBlock a x).record act) where
  touch := .of_sameMem ⟨rfl, rfl, rfl, rfl⟩
  fields := rfl
  dino := by
    rw [view_record, view_setData h.ordered (h.owned.isData ha)]
    rfl
  place j _ k := by rw [focus_write h.toWork ha, h.owned.place_setData_file ha]
  blk j hj n := by
    rw [focus_write h.toWork ha, h.owned.blk_setData ha, if_neg (by simp [hj])]

theorem Held.write {nb bn a : ℕ} (h : Held s ip nb)
    (ha : (s.focus ip).place ((s.icache ip).inum, fileIdx bn) = some a) (x : Block) (act : Action) :
    Held ((s.setBlock a x).record act) ip nb where
  ordered := h.ordered
  inum_lt := h.inum_lt
  type_ne := h.type_ne
  owned := by
    rw [focus_write h.toWork ha]
    exact h.owned.congr (h.owned.place_setData_file ha x) rfl
  mapped := by
    rw [focus_write h.toWork ha, h.owned.place_setData_file ha]
    exact h.mapped

/-- What the loop of `writei` does to the file. -/
structure WritePost (s : State P) (ip : Slot) (nb off : ℕ) (src : List Byte) (s' : State P) :
    Prop where
  grown : Grown ip s s'
  held : Held s' ip (max nb (nblk (off + src.length)))
  byte : ∀ n, (s'.focus ip).byte (s.icache ip).inum n =
    if off ≤ n ∧ n < off + src.length then src.getD (n - off) 0
    else (s.focus ip).byte (s.icache ip).inum n
  free : (s'.focus ip).free s.sb + blocksOf (max nb (nblk (off + src.length))) =
    (s.focus ip).free s.sb + blocksOf nb
  same : off + src.length ≤ nb * bSize → s'.icache = s.icache

theorem WritePost.nil {nb off : ℕ} (h : Held s ip nb) (hoff : off ≤ nb * bSize) :
    WritePost s ip nb off [] s := by
  have hmax : max nb (nblk (off + ([] : List Byte).length)) = nb :=
    max_eq_left (nblk_le_iff.mpr hoff)
  refine ⟨.refl ip s, by rwa [hmax], fun n => ?_, by rw [hmax], fun _ => rfl⟩
  rw [if_neg (by simp)]

theorem WritePost.cons {nb off m : ℕ} {src : List Byte} {s₁ s₂ s₃ : State P} {a : ℕ}
    (h : Held s ip nb) (hmaxFile : off / bSize < maxFile) (hm : m ≤ src.length) (hpos : 0 < m)
    (hroom : off % bSize + m ≤ bSize) (hbmap : BmapPost s ip nb (off / bSize) a s₁)
    (hs₂ : s₂ = (s₁.setBlock a (Block.setBytes (s₁.disk a) (off % bSize) (src.take m))).record
      (.logWrite a))
    (hrest : WritePost s₂ ip (max nb (off / bSize + 1)) (off + m) (src.drop m) s₃) :
    WritePost s ip nb off src s₃ := by
  have hinum₁ := hbmap.grown.touch.inum
  have ha := hbmap.place
  rw [← hinum₁] at ha
  have hgrown₂ : Grown ip s₁ s₂ := hs₂ ▸ .write hbmap.held ha _ _
  have hinum₂ : (s₂.icache ip).inum = (s.icache ip).inum := hgrown₂.touch.inum.trans hinum₁
  have hfocus₂ := focus_write hbmap.held.toWork ha
    (Block.setBytes (s₁.disk a) (off % bSize) (src.take m)) (.logWrite a)
  rw [← hs₂] at hfocus₂
  have hlen : (src.take m).length = m := List.length_take_of_le hm
  have hend : off + m + (src.drop m).length = off + src.length := by
    rw [List.length_drop]
    omega
  have hmax : max (max nb (off / bSize + 1)) (nblk (off + src.length)) =
      max nb (nblk (off + src.length)) := by
    have hle : off / bSize + 1 ≤ nblk (off + src.length) := by
      rw [succ_le_iff, lt_nblk_iff]
      have := div_mul_le_self off bSize
      omega
    omega
  -- the bytes after the round
  have hbyte₂ (n : ℕ) : (s₂.focus ip).byte (s.icache ip).inum n =
      if off ≤ n ∧ n < off + m then src.getD (n - off) 0
      else (s.focus ip).byte (s.icache ip).inum n := by
    have hblk₁ : (s₁.focus ip).blk (s.icache ip).inum (off / bSize) = some (s₁.disk a) := by
      rw [View.blk, hbmap.place, Option.map_some, hbmap.held.data_eq ha]
    have hold (k : ℕ) : ((s₁.focus ip).blk (s.icache ip).inum k).getD 0 =
        ((s.focus ip).blk (s.icache ip).inum k).getD 0 := by
      rw [hbmap.blk]
      split_ifs with hk
      · -- a new block is zero, as the bytes past the end were
        obtain ⟨rfl, hge⟩ := hk
        rw [View.blk, h.mapped.eq_none hmaxFile hge]
        rfl
      · rfl
    rw [View.byte, hfocus₂, hbmap.held.owned.blk_setData ha, hinum₁]
    by_cases hn : n / bSize = off / bSize
    · rw [if_pos ⟨rfl, hn⟩, Option.getD_some, byte_setBytes _ (by rw [hlen]; exact hroom), hlen]
      have hsplit : off % bSize ≤ n % bSize ∧ n % bSize < off % bSize + m ↔
          off ≤ n ∧ n < off + m := by
        simp only [bSize] at hn hroom ⊢
        omega
      by_cases hin : off ≤ n ∧ n < off + m
      · rw [if_pos (hsplit.mpr hin), if_pos hin]
        have hidx : n % bSize - off % bSize = n - off := by
          simp only [bSize] at hn ⊢
          omega
        rw [hidx, List.getD_eq_getElem?_getD, List.getD_eq_getElem?_getD,
          List.getElem?_take_of_lt (by omega)]
      · rw [if_neg (fun hin' => hin (hsplit.mp hin')), if_neg hin, View.byte, ← hold, hn, hblk₁,
          Option.getD_some]
    · have hout : ¬ (off ≤ n ∧ n < off + m) := by
        simp only [bSize] at hn hroom ⊢
        omega
      rw [if_neg (fun h => hn h.2), if_neg hout, hold, View.byte]
  refine ⟨(hbmap.grown.trans hgrown₂).trans hrest.grown, ?_, fun n => ?_, ?_, fun hle => ?_⟩
  · have := hrest.held
    rwa [hend, hmax] at this
  · have := hrest.byte n
    rw [hinum₂, hbyte₂, hend] at this
    rw [this]
    by_cases hnew : off + m ≤ n ∧ n < off + src.length
    · rw [if_pos hnew, if_pos (by omega), List.getD_eq_getElem?_getD, List.getElem?_drop,
        List.getD_eq_getElem?_getD, show m + (n - (off + m)) = n - off by omega]
    · rw [if_neg hnew]
      by_cases hold : off ≤ n ∧ n < off + m
      · rw [if_pos hold, if_pos (by omega)]
      · rw [if_neg hold, if_neg (by omega)]
  · have := hrest.free
    rw [hend, hmax, hgrown₂.touch.sb, hbmap.grown.touch.sb] at this
    rw [this, ← hbmap.free, hfocus₂]
    rfl
  · have hlt : off / bSize < nb := by
      rw [div_lt_iff_lt_mul (by decide)]
      omega
    rw [hrest.same (by rw [hend, max_eq_left hlt]; exact hle), hs₂]
    exact hbmap.same hlt

/-- The loop of `writei` stores the bytes, allocating blocks as needed. It fails only if the free
blocks do not suffice. -/
theorem writeLoop_spec {fuel off nb : ℕ} {src : List Byte} (h : Held s ip nb)
    (hfuel : src.length ≤ fuel) (hoff : off ≤ nb * bSize)
    (hend : off + src.length ≤ maxFile * bSize)
    (hE : (s.focus ip).free s.sb + blocksOf nb < blocksOf (max nb (nblk (off + src.length))) →
      E .outOfBlocks) :
    Wp E (writeLoop ip fuel off src) (fun _ s' => WritePost s ip nb off src s') s := by
  induction fuel generalizing s off src nb with
  | zero =>
    obtain rfl : src = [] := List.length_eq_zero_iff.mp (le_zero.mp hfuel)
    exact WritePost.nil h hoff
  | succ fuel ih =>
    by_cases hzero : src.length = 0
    · obtain rfl : src = [] := List.length_eq_zero_iff.mp hzero
      exact WritePost.nil h hoff
    have hmod : off % bSize < bSize := mod_lt _ (by decide)
    have hdiv := div_mul_le_self off bSize
    have hdivmod := Nat.div_add_mod off bSize
    have hle : off / bSize ≤ nb := Nat.div_le_of_le_mul (by rwa [Nat.mul_comm])
    have hlt : off / bSize < maxFile := by
      rw [Nat.div_lt_iff_lt_mul (by decide)]
      omega
    have hnext : off / bSize + 1 ≤ nblk (off + src.length) := by
      rw [succ_le_iff, lt_nblk_iff]
      omega
    simp only [writeLoop, hzero, ↓reduceIte, wp_bind]
    refine (bmap_spec h hle hlt fun hfew => hE (hfew.trans_le ?_)).mono fun a s₁ hbmap => ?_
    · exact blocksOf_mono (max_le_max_left nb hnext)
    simp only [bread, wp_bind, wp_get, wp_pure, logWrite, wp_modify]
    have ha := hbmap.place
    rw [← hbmap.grown.touch.inum] at ha
    set m := min src.length (bSize - off % bSize) with hm
    have hmle : m ≤ src.length := min_le_left ..
    have hpos : 0 < m := by omega
    have hroom : off % bSize + m ≤ bSize := by omega
    have hfocus := focus_write hbmap.held.toWork ha
      (Block.setBytes (s₁.disk a) (off % bSize) (src.take m)) (.logWrite a)
    have hmax : max (max nb (off / bSize + 1)) (nblk (off + src.length)) =
        max nb (nblk (off + src.length)) := by omega
    have hend' : off + m + (src.drop m).length = off + src.length := by
      rw [List.length_drop]
      omega
    have hsucc : (off / bSize + 1) * bSize = bSize * (off / bSize) + bSize := by
      rw [succ_mul, mul_comm]
    refine (ih (hbmap.held.write ha _ _) ?_ ?_ (by rwa [hend']) fun hfew => hE ?_).mono
      fun _ s₃ hrest => .cons h hlt hmle hpos hroom hbmap rfl hrest
    · rw [List.length_drop]
      omega
    · refine le_trans ?_ (mul_le_mul_right bSize (le_max_right nb (off / bSize + 1)))
      omega
    · rw [hfocus, hend', hmax] at hfew
      have hfree := hbmap.free
      have hsb := hbmap.grown.touch.sb
      change View.free s₁.sb _ + _ < _ at hfew
      rw [hsb] at hfew
      have heq : View.free s.sb ((s₁.focus ip).setData a
          (Block.setBytes (s₁.disk a) (off % bSize) (src.take m))) =
          View.free s.sb (s₁.focus ip) := rfl
      rw [heq] at hfew
      omega

end Dave.Fs
