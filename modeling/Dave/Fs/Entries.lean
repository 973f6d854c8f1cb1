import Dave.Fs.Truncate

/-!
# Directory entries

The bytes of a directory are a list of entries. This file says what the code of a directory does in
terms of that list: `dirlookup` finds the first entry with a name, `dirlink` stores an entry in the
first free place or at the end, and `isdirempty` looks at all entries but the first two.
-/

namespace Dave.Fs

open Nat List

variable {P : Type} {E : Panic → Prop} {s s' s'' : State P} {ip dp : Slot}

/-! ### Names -/

theorem length_strncpy (t : Str) (n : ℕ) : (strncpy t n).length = n := by
  induction n generalizing t with
  | zero => rfl
  | succ n ih =>
    rw [strncpy]
    split_ifs
    · rw [length_cons, ih]
    · rw [length_replicate]

theorem headD_strncpy (t : Str) (n : ℕ) : (strncpy t (n + 1)).headD 0 = t.headD 0 := by
  rw [strncpy]
  split_ifs with h
  · rfl
  · exact (not_not.mp h).symm

theorem strncpy_strncpy (t : Str) (n : ℕ) : strncpy (strncpy t n) n = strncpy t n := by
  induction n generalizing t with
  | zero => rfl
  | succ n ih =>
    by_cases h : t.headD 0 = 0
    · have hnil : strncpy t (n + 1) = replicate (n + 1) 0 := by
        rw [strncpy, if_neg (not_not.mpr h)]
      rw [hnil, strncpy]
      exact if_neg (not_not.mpr rfl)
    · have hcons : strncpy t (n + 1) = t.headD 0 :: strncpy t.tail n := by
        rw [strncpy, if_pos h]
      rw [hcons, strncpy, headD_cons, if_pos h, tail_cons, ih]

theorem strncmp_eq_zero_iff (p q : Str) (n : ℕ) :
    strncmp p q n = 0 ↔ strncpy p n = strncpy q n := by
  induction n generalizing p q with
  | zero => exact iff_of_true rfl rfl
  | succ n ih =>
    by_cases h : p.headD 0 ≠ 0 ∧ p.headD 0 = q.headD 0
    · rw [strncmp, if_pos h, ih, strncpy, if_pos h.1, strncpy, if_pos (h.2 ▸ h.1), h.2]
      simp
    · rw [strncmp, if_neg h]
      constructor
      · intro hzero
        have hhead : p.headD 0 = q.headD 0 := BitVec.eq_of_toNat_eq (by omega)
        have hp : p.headD 0 = 0 := by_contra fun hne => h ⟨hne, hhead⟩
        rw [strncpy, if_neg (not_not.mpr hp), strncpy, if_neg (not_not.mpr (hhead ▸ hp))]
      · intro heq
        have hhead := congrArg (fun l => l.headD 0) heq
        simp only [headD_strncpy] at hhead
        rw [hhead, sub_self]

/-- The copy of a name in a directory entry. -/
def key (name : Str) : List Byte := strncpy name dirSiz

theorem namecmp_eq_zero_iff {p q : Str} : namecmp p q = 0 ↔ key p = key q :=
  strncmp_eq_zero_iff p q dirSiz

theorem key_key (name : Str) : key (key name) = key name := strncpy_strncpy name dirSiz

theorem length_key (name : Str) : (key name).length = dirSiz := length_strncpy name dirSiz

/-! ### Entries as bytes -/

theorem Dirent.ofBytes_toBytes (de : Dirent) : .ofBytes de.toBytes = de := by
  obtain ⟨inum, name⟩ := de
  simp only [toBytes, ofBytes, getD_cons_zero, getD_cons_succ, drop_succ_cons,
    drop_zero, Dirent.mk.injEq, and_true]
  ext k hk
  simp only [BitVec.getElem_append, BitVec.getElem_extractLsb']
  split_ifs with h
  · simp [BitVec.getLsbD_eq_getElem hk]
  · have : 8 + (k - 8) = k := by omega
    simp [this, BitVec.getLsbD_eq_getElem hk]

/-- The empty entry that `sys_unlink` writes. -/
def Dirent.zero : Dirent := ⟨0, replicate dirSiz 0⟩

theorem Dirent.toBytes_zero : Dirent.zero.toBytes = replicate deSize 0 := by decide

/-- The `k`-th entry of directory `i`. -/
def View.dirent (v : View) (i k : ℕ) : Dirent :=
  .ofBytes (((v.bytes i).drop (deSize * k)).take deSize)

/-- The entries of directory `i`. -/
def View.dirents (v : View) (i : ℕ) : List Dirent :=
  (range ((v.dino i).size.toNat / deSize)).map (v.dirent i)

@[simp] theorem View.length_dirents (v : View) (i : ℕ) :
    (v.dirents i).length = (v.dino i).size.toNat / deSize := by
  simp [View.dirents]

theorem View.getElem_dirents (v : View) (i : ℕ) {k : ℕ} (hk : k < (v.dirents i).length) :
    (v.dirents i)[k] = v.dirent i k := by
  simp [View.dirents]

theorem View.drop_dirents (v : View) (i : ℕ) {k : ℕ} (hk : k < (v.dirents i).length) :
    (v.dirents i).drop k = v.dirent i k :: (v.dirents i).drop (k + 1) := by
  rw [drop_eq_getElem_cons hk, v.getElem_dirents i hk]

theorem View.dirents_congr {v v' : View} {i : ℕ} (h : v'.bytes i = v.bytes i) :
    v'.dirents i = v.dirents i := by
  have hsize : (v'.dino i).size.toNat = (v.dino i).size.toNat := by
    rw [← v'.length_bytes, ← v.length_bytes, h]
  rw [View.dirents, View.dirents, hsize]
  refine map_congr_left fun k _ => ?_
  rw [View.dirent, View.dirent, h]

/-! ### Reading entries -/

/-- A directory that has been locked. -/
structure OpenDir (s : State P) (dp : Slot) : Prop where
  disk : DiskOk s
  loaded : Loaded s dp
  type_eq : (s.icache dp).d.type = tDir
  size_dvd : deSize ∣ (s.icache dp).d.size.toNat

namespace OpenDir

variable (h : OpenDir s dp)

include h

theorem ne_dev : (s.icache dp).d.type ≠ tDev := by
  rw [h.type_eq]
  decide

theorem size_le : (s.icache dp).d.size.toNat ≤ maxFile * bSize := by
  have htype := h.loaded.type_ne
  have hdev := h.ne_dev
  rw [h.loaded.copy] at htype hdev ⊢
  exact h.disk.size_le htype hdev

theorem length :
    deSize * (s.view.dirents (s.icache dp).inum).length = (s.icache dp).d.size.toNat := by
  rw [View.length_dirents, ← h.loaded.copy, Nat.mul_div_cancel' h.size_dvd]

theorem lt_iff {k : ℕ} :
    deSize * k < (s.icache dp).d.size.toNat ↔ k < (s.view.dirents (s.icache dp).inum).length := by
  rw [← h.length]
  exact Nat.mul_lt_mul_left (by decide)

theorem readDirent_eq {k : ℕ} (hk : k < (s.view.dirents (s.icache dp).inum).length) (e : Panic) :
    readDirent dp (deSize * k) e s = .ok (s.view.dirent (s.icache dp).inum k, s) := by
  have hsize := h.size_le
  have hlen := h.length
  have hle : deSize * k + deSize ≤ (s.icache dp).d.size.toNat := by
    rw [← hlen, ← mul_succ]
    exact mul_le_mul_left deSize hk
  have hmax : maxFile * bSize < 2 ^ 32 := by decide
  have hoff : (BitVec.ofNat 32 (deSize * k)).toNat = deSize * k := by
    rw [BitVec.toNat_ofNat, mod_eq_of_lt (by omega)]
  have hde : (BitVec.ofNat 32 deSize).toNat = deSize := rfl
  have hcan : CanRead (s.icache dp).d.size (BitVec.ofNat 32 (deSize * k))
      (BitVec.ofNat 32 deSize) := by
    rw [CanRead, BitVec.le_def, hoff, hde]
    omega
  refine eq_ok_of_wp ?_
  rw [readDirent, wp_bind, wp_of_ok (readData_eq h.disk h.loaded h.ne_dev _ _)]
  simp only [hcan, ↓reduceIte, hoff, hde]
  have hbs : (((s.view.bytes (s.icache dp).inum).drop (deSize * k)).take deSize).length =
      deSize := by
    rw [length_take, length_drop, View.length_bytes, ← h.loaded.copy]
    omega
  rw [if_pos hbs]
  exact ⟨rfl, rfl⟩

end OpenDir

/-- The first entry with a name in a list of entries that starts at offset `off`: the number of
its inode and its offset. -/
def lookupFrom (name : Str) : List Dirent → ℕ → Option (ℕ × ℕ)
  | [], _ => none
  | e :: es, off =>
    if e.inum ≠ 0 ∧ namecmp name e.name = 0 then some (e.inum.toNat, off)
    else lookupFrom name es (off + deSize)

variable {name : Str} {es : List Dirent} {off : ℕ}

theorem exists_of_lookupFrom {i o : ℕ} (h : lookupFrom name es off = some (i, o)) :
    ∃ k e, es[k]? = some e ∧ o = off + deSize * k ∧ e.inum ≠ 0 ∧ key e.name = key name ∧
      e.inum.toNat = i := by
  induction es generalizing off with
  | nil => simp [lookupFrom] at h
  | cons e es ih =>
    rw [lookupFrom] at h
    split_ifs at h with hfound
    · obtain ⟨rfl, rfl⟩ := Prod.mk.inj (Option.some.inj h)
      exact ⟨0, e, rfl, rfl, hfound.1, (namecmp_eq_zero_iff.mp hfound.2).symm, rfl⟩
    · obtain ⟨k, e', hk, ho, hrest⟩ := ih h
      exact ⟨k + 1, e', hk, by rw [ho, mul_succ]; omega, hrest⟩

theorem lookupFrom_eq_none_iff :
    lookupFrom name es off = none ↔ ∀ e ∈ es, e.inum ≠ 0 → key e.name ≠ key name := by
  induction es generalizing off with
  | nil => simp [lookupFrom]
  | cons e es ih =>
    rw [lookupFrom, forall_mem_cons]
    split_ifs with hfound
    · refine iff_of_false (by simp) fun hne => ?_
      exact hne.1 hfound.1 (namecmp_eq_zero_iff.mp hfound.2).symm
    · rw [ih]
      refine (and_iff_right fun hne hkey => ?_).symm
      exact hfound ⟨hne, namecmp_eq_zero_iff.mpr hkey.symm⟩

section

variable (h : OpenDir s dp)

include h

theorem dirlookupLoop_eq (name : Str) {fuel k : ℕ}
    (hfuel : (s.view.dirents (s.icache dp).inum).length ≤ fuel + k) :
    dirlookupLoop dp name (s.icache dp).d.size.toNat fuel (deSize * k) s =
      .ok (lookupFrom name ((s.view.dirents (s.icache dp).inum).drop k) (deSize * k), s) := by
  induction fuel generalizing k with
  | zero =>
    rw [drop_eq_nil_of_le (by omega)]
    rfl
  | succ fuel ih =>
    refine eq_ok_of_wp ?_
    rw [dirlookupLoop]
    by_cases hk : k < (s.view.dirents (s.icache dp).inum).length
    · rw [if_pos (h.lt_iff.mpr hk), wp_bind, wp_of_ok (h.readDirent_eq hk _),
        View.drop_dirents _ _ hk, lookupFrom]
      split_ifs with hfound
      · exact ⟨rfl, rfl⟩
      · have hnext : deSize * k + deSize = deSize * (k + 1) := rfl
        rw [hnext, wp_of_ok (ih (by omega))]
        exact ⟨rfl, rfl⟩
    · rw [if_neg (mt h.lt_iff.mp hk), drop_eq_nil_of_le (not_lt.mp hk)]
      exact ⟨rfl, rfl⟩

theorem emptyLoop_eq {fuel k : ℕ} (hfuel : (s.view.dirents (s.icache dp).inum).length ≤ fuel + k) :
    emptyLoop dp (s.icache dp).d.size.toNat fuel (deSize * k) s =
      .ok (deSize * (k + ((s.view.dirents (s.icache dp).inum).drop k).findIdx (·.inum = 0)),
        s) := by
  induction fuel generalizing k with
  | zero =>
    rw [drop_eq_nil_of_le (by omega)]
    rfl
  | succ fuel ih =>
    refine eq_ok_of_wp ?_
    rw [emptyLoop]
    by_cases hk : k < (s.view.dirents (s.icache dp).inum).length
    · rw [if_pos (h.lt_iff.mpr hk), wp_bind, wp_of_ok (h.readDirent_eq hk _),
        View.drop_dirents _ _ hk, findIdx_cons]
      by_cases hzero : (s.view.dirent (s.icache dp).inum k).inum = 0
      · rw [if_pos hzero, hzero]
        exact ⟨rfl, rfl⟩
      · have hnext : deSize * k + deSize = deSize * (k + 1) := rfl
        rw [if_neg hzero, hnext, wp_of_ok (ih (by omega))]
        simp only [hzero, decide_false, cond_false, and_true]
        exact congrArg (deSize * ·) (by omega)
    · rw [if_neg (mt h.lt_iff.mp hk), drop_eq_nil_of_le (not_lt.mp hk)]
      exact ⟨rfl, rfl⟩

theorem isdiremptyLoop_eq {fuel k : ℕ}
    (hfuel : (s.view.dirents (s.icache dp).inum).length ≤ fuel + k) :
    isdiremptyLoop dp (s.icache dp).d.size.toNat fuel (deSize * k) s =
      .ok (((s.view.dirents (s.icache dp).inum).drop k).all (·.inum = 0), s) := by
  induction fuel generalizing k with
  | zero =>
    rw [drop_eq_nil_of_le (by omega)]
    rfl
  | succ fuel ih =>
    refine eq_ok_of_wp ?_
    rw [isdiremptyLoop]
    by_cases hk : k < (s.view.dirents (s.icache dp).inum).length
    · rw [if_pos (h.lt_iff.mpr hk), wp_bind, wp_of_ok (h.readDirent_eq hk _),
        View.drop_dirents _ _ hk, all_cons]
      by_cases hzero : (s.view.dirent (s.icache dp).inum k).inum = 0
      · have hnext : deSize * k + deSize = deSize * (k + 1) := rfl
        rw [if_neg (not_not.mpr hzero), hnext, wp_of_ok (ih (by omega))]
        simp [hzero]
      · rw [if_pos hzero, wp_pure, decide_eq_false hzero]
        exact ⟨rfl, rfl⟩
    · rw [if_neg (mt h.lt_iff.mp hk), drop_eq_nil_of_le (not_lt.mp hk)]
      exact ⟨rfl, rfl⟩

theorem OpenDir.length_le_size :
    (s.view.dirents (s.icache dp).inum).length ≤ (s.icache dp).d.size.toNat := by
  rw [← h.length]
  exact Nat.le_mul_of_pos_left _ (by decide)

theorem isdirempty_eq : isdirempty dp s =
      .ok (((s.view.dirents (s.icache dp).inum).drop 2).all (·.inum = 0), s) := by
  refine eq_ok_of_wp ?_
  rw [isdirempty, wp_bind, wp_get]
  have hfuel := h.length_le_size.trans (le_add_right _ 2)
  rw [wp_of_ok ((mul_comm deSize 2) ▸ isdiremptyLoop_eq h hfuel)]
  exact ⟨rfl, rfl⟩

end

/-! ### Writing entries -/

variable {α : Type} {old src : List α}

theorem getElem?_splice (hoff : off ≤ old.length) (n : ℕ) : (splice old off src)[n]? =
      if off ≤ n ∧ n < off + src.length then src[n - off]? else old[n]? := by
  rw [splice, append_assoc]
  by_cases h1 : n < off
  · rw [getElem?_append_left (by rw [length_take]; omega), getElem?_take_of_lt h1,
      if_neg (by omega)]
  · have hlen : (old.take off).length = off := by rw [length_take]; omega
    rw [getElem?_append_right (by omega), hlen]
    by_cases h2 : n < off + src.length
    · rw [getElem?_append_left (by omega), if_pos (by omega)]
    · rw [getElem?_append_right (by omega), getElem?_drop, if_neg (by omega)]
      congr 1
      omega

theorem length_splice (hoff : off ≤ old.length) :
    (splice old off src).length = max old.length (off + src.length) := by
  simp only [splice, length_append, length_take, length_drop]
  omega

theorem take_drop_splice {c j : ℕ} (hsrc : src.length = c) (hj : c * j ≤ old.length) (k : ℕ) :
    ((splice old (c * j) src).drop (c * k)).take c =
      if k = j then src else (old.drop (c * k)).take c := by
  refine ext_getElem? fun n => ?_
  by_cases hn : n < c
  · rw [getElem?_take_of_lt hn, getElem?_drop, getElem?_splice hj, hsrc]
    by_cases hk : k = j
    · subst hk
      rw [if_pos (by omega), if_pos rfl, Nat.add_sub_cancel_left]
    · rw [if_neg hk, getElem?_take_of_lt hn, getElem?_drop, if_neg]
      rintro ⟨h1, h2⟩
      rcases lt_or_gt_of_ne hk with hlt | hgt
      · have := mul_le_mul_left c (succ_le_of_lt hlt)
        rw [mul_succ] at this
        omega
      · have := mul_le_mul_left c (succ_le_of_lt hgt)
        rw [mul_succ] at this
        omega
  · rw [getElem?_eq_none (by rw [length_take]; omega), getElem?_eq_none]
    split_ifs
    · omega
    · rw [length_take]
      omega

variable {de : Dirent}

theorem View.dirents_splice {v v' : View} {i j : ℕ} (hname : de.name.length = dirSiz)
    (hdvd : deSize ∣ (v.dino i).size.toNat) (hj : j ≤ (v.dirents i).length)
    (h : v'.bytes i = splice (v.bytes i) (deSize * j) de.toBytes) :
    v'.dirents i = splice (v.dirents i) j [de] := by
  have hde : de.toBytes.length = deSize := by
    rw [Dirent.toBytes, length_cons, length_cons, hname]
  have hlen : deSize * (v.dirents i).length = (v.bytes i).length := by
    rw [length_dirents, length_bytes, Nat.mul_div_cancel' hdvd]
  have hoff : deSize * j ≤ (v.bytes i).length := hlen ▸ Nat.mul_le_mul_left deSize hj
  have hlen' : (v'.dirents i).length = max (v.dirents i).length (j + 1) := by
    rw [length_dirents, ← length_bytes, h, length_splice hoff, hde, ← hlen, ← Nat.mul_succ,
      Nat.mul_max_mul_left, Nat.mul_div_cancel_left _ (by decide)]
  refine ext_getElem ?_ fun k hk hk' => ?_
  · rw [hlen', length_splice hj, length_singleton]
  · rw [getElem_dirents, View.dirent, h, take_drop_splice hde hoff]
    have hget : (splice (v.dirents i) j [de])[k]? = _ := getElem?_splice hj k
    rw [getElem?_eq_getElem hk', length_singleton] at hget
    by_cases hkj : k = j
    · subst hkj
      rw [if_pos (by omega), Nat.sub_self] at hget
      rw [if_pos rfl, Dirent.ofBytes_toBytes]
      exact (Option.some.inj hget).symm
    · rw [if_neg (by omega)] at hget
      rw [if_neg hkj]
      have hold : k < (v.dirents i).length := by omega
      rw [getElem?_eq_getElem hold, getElem_dirents] at hget
      exact (Option.some.inj hget).symm

/-- A step that stores the entry `de` at index `j` of the directory `dp`. -/
structure Entered (dp : Slot) (s s' : State P) (j : ℕ) (de : Dirent) : Prop where
  touch : Touch dp s s'
  openDir : OpenDir s' dp
  fields : s'.view.dino (s.icache dp).inum = { s.view.dino (s.icache dp).inum with
      size := (s'.view.dino (s.icache dp).inum).size
      addrs := (s'.view.dino (s.icache dp).inum).addrs }
  dirents : s'.view.dirents (s.icache dp).inum = splice (s.view.dirents (s.icache dp).inum) j [de]
  dino_of_ne : ∀ i, i ≠ (s.icache dp).inum → s'.view.dino i = s.view.dino i
  bytes_of_ne : ∀ i, i ≠ (s.icache dp).inum → s'.view.bytes i = s.view.bytes i

theorem length_toBytes (hname : de.name.length = dirSiz) : de.toBytes.length = deSize := by
  rw [Dirent.toBytes, length_cons, length_cons, hname]

theorem blocksOf_deSize_le (n : ℕ) : blocksOf (nblk (n + deSize)) ≤ blocksOf (nblk n) + 2 := by
  have hle : nblk (n + deSize) ≤ nblk n + 1 := by
    rw [nblk, nblk, bSize, deSize]
    omega
  refine (blocksOf_mono hle).trans ?_
  rw [blocksOf, blocksOf]
  split_ifs <;> omega

/-- Writing an entry. The write is refused only beyond the largest size of a file, and fails only
if the directory grows and the free blocks do not suffice. -/
theorem writeDirent_spec (h : OpenDir s dp) (hname : de.name.length = dirSiz) {j : ℕ}
    (hj : j ≤ (s.view.dirents (s.icache dp).inum).length)
    (hE : j = (s.view.dirents (s.icache dp).inum).length → s.view.free s.sb < 2 → E .outOfBlocks) :
    Wp E (writeData dp de.toBytes (BitVec.ofNat 32 (deSize * j))) (fun r s' =>
      if deSize * (j + 1) ≤ maxFile * bSize then r = some deSize ∧ Entered dp s s' j de
      else r = none ∧ s' = s) s := by
  have hsize := h.size_le
  have hlen := h.length
  have hmax : maxFile * bSize + deSize < 2 ^ 32 := by decide
  have hle : deSize * j ≤ (s.icache dp).d.size.toNat := hlen ▸ mul_le_mul_left deSize hj
  have hde := length_toBytes hname
  have hoff : (BitVec.ofNat 32 (deSize * j)).toNat = deSize * j := by
    rw [BitVec.toNat_ofNat, mod_eq_of_lt (by omega)]
  have hcan : CanWrite (s.icache dp).d.size (BitVec.ofNat 32 (deSize * j))
      (BitVec.ofNat 32 deSize) ↔ deSize * (j + 1) ≤ maxFile * bSize := by
    have hn : (BitVec.ofNat 32 deSize).toNat = deSize := rfl
    rw [CanWrite, BitVec.le_def, hoff, hn, mul_succ deSize j]
    omega
  refine (writeData_spec h.disk h.loaded h.ne_dev (by rw [hde]; decide) fun _ hfew => ?_).mono
    fun r s' hpost => ?_
  · rw [hoff, hde] at hfew
    rcases hj.lt_or_eq with hlt | heq
    · have hin : deSize * j + deSize ≤ (s.icache dp).d.size.toNat :=
        hlen ▸ mul_le_mul_left deSize hlt
      rw [max_eq_left (nblk_mono hin)] at hfew
      omega
    · have hoffs : deSize * j = (s.icache dp).d.size.toNat := by rw [heq, hlen]
      rw [hoffs, max_eq_right (nblk_mono (le_add_right _ _))] at hfew
      have hgrow := blocksOf_deSize_le (s.icache dp).d.size.toNat
      exact hE heq (by omega)
  rw [hde, if_congr hcan rfl rfl] at hpost
  split_ifs at hpost ⊢ with hfit
  · obtain ⟨hr, hst⟩ := hpost
    refine ⟨hr, hst.touch, ?_, hst.fields, ?_, hst.dino_of_ne, hst.bytes_of_ne⟩
    · refine ⟨hst.disk, hst.loaded, ?_, ?_⟩
      · rw [hst.loaded.copy, hst.touch.inum, hst.fields, ← h.loaded.copy]
        exact h.type_eq
      · have hbs := congrArg length hst.bytes
        rw [View.length_bytes, hoff, length_splice
          (by rw [View.length_bytes, ← h.loaded.copy]; exact hle),
          View.length_bytes, ← h.loaded.copy, hde] at hbs
        rw [hst.loaded.copy, hst.touch.inum, hbs, ← hlen, ← Nat.mul_succ, Nat.mul_max_mul_left]
        exact Nat.dvd_mul_right _ _
    · refine View.dirents_splice hname ?_ hj (hoff ▸ hst.bytes)
      rw [← h.loaded.copy]
      exact h.size_dvd
  · exact hpost

/-- `addEntry` stores the entry in the first free place or at the end. It fails only if there is no
free place, and the directory is as long as a file can be or the free blocks do not suffice. -/
theorem addEntry_spec (h : OpenDir s dp) (name : Str) (inum : ℕ)
    (hE : (∀ e ∈ s.view.dirents (s.icache dp).inum, e.inum ≠ 0) → s.view.free s.sb < 2 →
      E .outOfBlocks)
    (hE' : (∀ e ∈ s.view.dirents (s.icache dp).inum, e.inum ≠ 0) →
      maxFile * bSize ≤ (s.icache dp).d.size.toNat → E .dirlink) :
    Wp E (addEntry dp name inum) (fun _ s' =>
      Entered dp s s' ((s.view.dirents (s.icache dp).inum).findIdx (·.inum = 0))
        ⟨BitVec.ofNat 16 inum, key name⟩) s := by
  have hfuel := h.length_le_size.trans (le_add_right (s.icache dp).d.size.toNat 0)
  have hloop := emptyLoop_eq h hfuel
  rw [mul_zero, drop_zero, zero_add] at hloop
  simp only [addEntry, wp_bind, wp_get]
  rw [wp_of_ok hloop]
  have hname : (Dirent.mk (BitVec.ofNat 16 inum) (key name)).name.length = dirSiz :=
    length_key name
  have hnone (hidx : (s.view.dirents (s.icache dp).inum).findIdx (·.inum = 0) =
      (s.view.dirents (s.icache dp).inum).length) :
      ∀ e ∈ s.view.dirents (s.icache dp).inum, e.inum ≠ 0 := by
    simpa using findIdx_eq_length.mp hidx
  refine (writeDirent_spec h hname findIdx_le_length fun hidx => hE (hnone hidx)).mono
    fun r s' hpost => ?_
  split_ifs at hpost with hfit
  · rw [hpost.1, if_neg (not_not.mpr rfl), wp_pure]
    exact hpost.2
  · rw [hpost.1, if_pos (by simp), wp_throw]
    -- an entry inside the directory would fit
    have hlen := h.length
    have hmul : maxFile * bSize = deSize * (maxFile * 32) := by decide
    have hsize := h.size_le
    have hle : (s.view.dirents (s.icache dp).inum).findIdx (·.inum = 0) ≤
        (s.view.dirents (s.icache dp).inum).length := findIdx_le_length
    rcases hle.lt_or_eq with hlt | hidx
    · exact absurd ((mul_le_mul_left deSize hlt).trans (hlen.trans_le hsize)) hfit
    · rw [hidx] at hfit
      refine hE' (hnone hidx) ?_
      rw [← hlen, hmul] at hsize ⊢
      rw [hmul] at hfit
      have := Nat.lt_of_mul_lt_mul_left (Nat.not_le.mp hfit)
      exact Nat.mul_le_mul_left deSize (by omega)

end Dave.Fs
