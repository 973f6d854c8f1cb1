import Dave.Lib.RedoLog
import Dave.Logging.Cache
import Dave.Logging.Protocol

/-!
# Crash recovery

At every moment the disk *stands for* the contents after the transactions whose first `write_head`
reached it: replaying the blocks that the header on the disk records gives those contents
(`DiskOk`). This holds between any two block writes of a commit and of a recovery, so a crash at
any of them loses nothing but the open transaction; and a recovery that completes leaves the
contents themselves on the disk.

The rest of the invariant says where the commit or the recovery is:

* `Open` : the header on the disk is empty, the cache holds the updates of the open transaction
  and pins them;
* `Installing` : the header on the disk is the one in memory and some of its blocks are home;
* `Cleared` : all blocks are home and only the header on the disk remains to be cleared.

The lemmas of this file say how each block write moves from one of these to the next; the runs of
the machine are in `Dave.Logging.Crash`.
-/

namespace Dave.Logging

open List Function RedoLog

/-! ### What the disk stands for -/

/-- The log block that holds the copy of entry `i` of the header. -/
def Log.slot (l : Log) (i : ℕ) : ℕ := l.start + i + 1

/-- The home addresses recorded by a header. -/
def homes (hd : List Word) : List ℕ := hd.map BitVec.toNat

/-- An update as a write to the disk. -/
def Update.write (u : Update) : ℕ × Block := (u.block.toNat, u.data)

/-- The contents of the disk after the updates of a list of transactions, from the contents
`d₀`. -/
def contents (ts : List (List Update)) (d₀ : ℕ → Block) : ℕ → Block :=
  writes (ts.flatten.map Update.write) d₀

/-- A header that fits in the log area and names distinct blocks outside it. -/
structure HeadOk (l : Log) (hd : List Word) : Prop where
  length_le : hd.length ≤ logSize
  length_lt : hd.length < l.size
  nodup : hd.Nodup
  outside : ∀ w ∈ hd, ¬ l.InArea w.toNat

/-- The disk stands for the contents after the committed transactions `ts`. -/
structure DiskOk (d₀ : ℕ → Block) (st : Store) (l : Log) (ts : List (List Update)) : Prop where
  head : HeadOk l (headOf (st.disk l.start))
  stands : ∀ b, ¬ l.InArea b →
    replay l.slot (homes (headOf (st.disk l.start))) st.disk b = contents ts d₀ b
  clean : st.Clean

/-- A transaction is open: its updates are pinned in the cache and recorded in the header in
memory, while the header on the disk is empty. -/
structure Open (d₀ : ℕ → Block) (st : Store) (l : Log) (current : List Update)
    (ts : List (List Update)) : Prop where
  head : headOf (st.disk l.start) = []
  lh : HeadOk l l.lh
  dirty : ∀ b, st.Dirty b → b ∈ homes l.lh
  mem : ∀ u ∈ current, u.block ∈ l.lh
  view : ∀ b, ¬ l.InArea b → st.view b = writes (current.map Update.write) (contents ts d₀) b

/-- The first `t` blocks of the transaction have been copied to the log. -/
def Written (st : Store) (l : Log) (t : ℕ) : Prop :=
  ∀ i < t, st.disk (l.slot i) = st.view (l.block i)

/-- The header on the disk is the one in memory, and its first `t` blocks are home. -/
structure Installing (t : ℕ) (st : Store) (l : Log) (current : List Update) : Prop where
  head : headOf (st.disk l.start) = l.lh
  home : ∀ i < t, i < l.lh.length → st.disk (l.block i) = st.disk (l.slot i)
  dirty : ∀ b, st.Dirty b → ∃ i, t ≤ i ∧ i < l.lh.length ∧ l.block i = b
  current : current = []

/-- All blocks of the header on the disk are home and the header in memory is empty. -/
structure Cleared (st : Store) (l : Log) (current : List Update) : Prop where
  lh : l.lh = []
  home : ∀ (i : ℕ) (hi : i < (homes (headOf (st.disk l.start))).length),
    st.disk ((homes (headOf (st.disk l.start))).get ⟨i, hi⟩) = st.disk (l.slot i)
  dirty : ∀ b, ¬ st.Dirty b
  current : current = []

section Components

variable {d₀ : ℕ → Block} {st st' : Store} {l : Log} {cur : List Update} {ts : List (List Update)}

@[simp] theorem length_homes (hd : List Word) : (homes hd).length = hd.length := length_map _

variable {i : ℕ}

theorem block_eq_get (hi : i < l.lh.length) :
    l.block i = (homes l.lh).get ⟨i, by simpa using hi⟩ := by
  simp [Log.block, homes, hi]

theorem mem_homes_iff {b : ℕ} : b ∈ homes l.lh ↔ ∃ i < l.lh.length, l.block i = b := by
  constructor
  · intro h
    obtain ⟨i, hi, rfl⟩ := getElem_of_mem h
    have hi' : i < l.lh.length := by simpa using hi
    exact ⟨i, hi', block_eq_get hi'⟩
  · rintro ⟨i, hi, rfl⟩
    rw [block_eq_get hi]
    exact get_mem _ _

variable {hd : List Word}

theorem HeadOk.nodup_homes (h : HeadOk l hd) : (homes hd).Nodup :=
  h.nodup.map fun _ _ hab => BitVec.eq_of_toNat_eq hab

theorem HeadOk.block_outside (h : HeadOk l l.lh) (hi : i < l.lh.length) :
    ¬ l.InArea (l.block i) := by
  have hb : l.block i = (l.lh[i]).toNat := by simp [Log.block, hi]
  rw [hb]
  exact h.outside _ (getElem_mem hi)

theorem HeadOk.inArea_slot (h : HeadOk l hd) (hi : i < hd.length) : l.InArea (l.slot i) := by
  have := h.length_lt
  simp only [Log.InArea, Log.slot]
  omega

theorem HeadOk.inArea_start (h : HeadOk l hd) : l.InArea l.start := by
  have := h.length_lt
  simp only [Log.InArea]
  omega

theorem slot_ne_start (i : ℕ) : l.slot i ≠ l.start := by
  simp only [Log.slot]
  omega

theorem slot_injective {j : ℕ} (h : l.slot i = l.slot j) : i = j := by
  simp only [Log.slot] at h
  omega

theorem ne_of_inArea {a b : ℕ} (ha : l.InArea a) (hb : ¬ l.InArea b) : a ≠ b :=
  fun h => hb (h ▸ ha)

theorem contents_concat (ts : List (List Update)) (t : List Update) (d₀ : ℕ → Block) :
    contents (ts ++ [t]) d₀ = writes (t.map Update.write) (contents ts d₀) := by
  simp only [contents, flatten_append, map_append, writes_append, flatten_cons,
    flatten_nil, append_nil]

/-! ### Reading and recycling -/

theorem DiskOk.same (h : DiskOk d₀ st l ts) (hs : st.Same st') : DiskOk d₀ st' l ts where
  head := by rw [hs.disk]; exact h.head
  stands := by rw [hs.disk]; exact h.stands
  clean := hs.clean h.clean

theorem Open.same (h : Open d₀ st l cur ts) (hs : st.Same st') : Open d₀ st' l cur ts where
  head := by rw [hs.disk]; exact h.head
  lh := h.lh
  dirty b hb := h.dirty b ((hs.dirty b).mp hb)
  mem := h.mem
  view := by rw [hs.view]; exact h.view

variable {t : ℕ}

theorem Written.same (h : Written st l t) (hs : st.Same st') : Written st' l t := by
  intro i hi
  rw [hs.disk, hs.view]
  exact h i hi

theorem Installing.same (h : Installing t st l cur) (hs : st.Same st') :
    Installing t st' l cur where
  head := by rw [hs.disk]; exact h.head
  home := by rw [hs.disk]; exact h.home
  dirty b hb := h.dirty b ((hs.dirty b).mp hb)
  current := h.current

theorem Cleared.same (h : Cleared st l cur) (hs : st.Same st') : Cleared st' l cur where
  lh := h.lh
  home := by rw [hs.disk]; exact h.home
  dirty b hb := h.dirty b ((hs.dirty b).mp hb)
  current := h.current

/-! ### The counters of the log -/

theorem HeadOk.counters (h : HeadOk l hd) (o : ℕ) (c : Bool) :
    HeadOk { l with outstanding := o, committing := c } hd :=
  ⟨h.length_le, h.length_lt, h.nodup, h.outside⟩

theorem DiskOk.counters (h : DiskOk d₀ st l ts) (o : ℕ) (c : Bool) :
    DiskOk d₀ st { l with outstanding := o, committing := c } ts :=
  ⟨h.head.counters o c, h.stands, h.clean⟩

theorem Open.counters (h : Open d₀ st l cur ts) (o : ℕ) (c : Bool) :
    Open d₀ st { l with outstanding := o, committing := c } cur ts :=
  ⟨h.head, h.lh.counters o c, h.dirty, h.mem, h.view⟩

theorem DiskOk.setLh (h : DiskOk d₀ st l ts) (lh : List Word) :
    DiskOk d₀ st { l with lh := lh } ts :=
  ⟨⟨h.head.length_le, h.head.length_lt, h.head.nodup, h.head.outside⟩, h.stands, h.clean⟩

/-! ### Logging a block -/

theorem DiskOk.pin (h : DiskOk d₀ st l ts) (b : ℕ) (v : Block) : DiskOk d₀ (st.pin b v) l ts :=
  ⟨h.head, h.stands, Store.pin_clean h.clean b v⟩

theorem HeadOk.absorb {b : Word} (h : HeadOk l l.lh) (hn : l.lh.length < logSize)
    (hsize : l.lh.length < l.size - 1) (hb : ¬ l.InArea b.toNat) :
    HeadOk { l with lh := absorb l.lh b } (absorb l.lh b) := by
  unfold Logging.absorb
  split_ifs with hmem
  · exact ⟨h.length_le, h.length_lt, h.nodup, h.outside⟩
  · refine ⟨?_, ?_, ?_, ?_⟩
    · simp only [length_append, length_singleton]; omega
    · simp only [length_append, length_singleton]; omega
    · exact nodup_append.mpr ⟨h.nodup, nodup_singleton b, by
        intro x hx y hy
        rw [mem_singleton.mp hy]
        exact fun hxb => hmem (hxb ▸ hx)⟩
    · intro w hw
      rcases mem_append.mp hw with hw | hw
      · exact h.outside w hw
      · rw [mem_singleton.mp hw]
        exact hb

theorem mem_absorb_self (lh : List Word) (b : Word) : b ∈ absorb lh b := by
  unfold absorb
  split_ifs with h
  · exact h
  · simp

theorem subset_absorb (lh : List Word) (b : Word) : ∀ w ∈ lh, w ∈ absorb lh b := by
  intro w hw
  unfold absorb
  split_ifs
  · exact hw
  · exact mem_append_left _ hw

theorem Open.pin (h : Open d₀ st l cur ts) (u : Update) (hn : l.lh.length < logSize)
    (hsize : l.lh.length < l.size - 1) (hb : ¬ l.InArea u.block.toNat) :
    Open d₀ (st.pin u.block.toNat u.data) { l with lh := absorb l.lh u.block }
      (cur ++ [u]) ts where
  head := h.head
  lh := h.lh.absorb hn hsize hb
  dirty b hd := by
    rcases (Store.pin_dirty _ _ _ _).mp hd with rfl | hd
    · exact mem_map_of_mem (mem_absorb_self l.lh u.block)
    · obtain ⟨w, hw, rfl⟩ := mem_map.mp (h.dirty b hd)
      exact mem_map_of_mem (subset_absorb l.lh u.block w hw)
  mem v hv := by
    rcases mem_append.mp hv with hv | hv
    · exact subset_absorb _ _ _ (h.mem v hv)
    · rw [mem_singleton.mp hv]
      exact mem_absorb_self _ _
  view b hb' := by
    rw [Store.pin_view, map_append, map_singleton, Update.write, writes_concat]
    by_cases hbu : b = u.block.toNat
    · subst hbu
      simp
    · rw [update_of_ne hbu, update_of_ne hbu]
      exact h.view b hb'

/-! ### Copying the transaction to the log -/

/-- A write inside the log area, while the header on the disk is empty, changes nothing the disk
stands for. -/
theorem Open.writeLog (h : Open d₀ st l cur ts) (hd : DiskOk d₀ st l ts) (hw : Written st l t)
    (ht : t < l.lh.length) :
    DiskOk d₀ (writeLog l t st) l ts ∧ Open d₀ (writeLog l t st) l cur ts ∧
      Written (writeLog l t st) l (t + 1) := by
  have w : st.Wrote (Logging.writeLog l t st) (l.slot t) (st.view (l.block t)) :=
    writeLog_wrote l t st
  have hslot := h.lh.inArea_slot ht
  have hhead : (Logging.writeLog l t st).disk l.start = st.disk l.start := by
    rw [w.disk, update_of_ne (slot_ne_start t).symm]
  refine ⟨⟨by rw [hhead]; exact hd.head, fun b hb => ?_, w.clean hd.clean⟩,
    ⟨by rw [hhead]; exact h.head, h.lh, fun b hb => h.dirty b ((w.dirty b).mp hb).2, h.mem,
      fun b hb => ?_⟩, fun i hi => ?_⟩
  · rw [hhead, h.head, homes, map_nil, replay_nil, w.disk,
      update_of_ne (ne_of_inArea hslot hb).symm, ← hd.stands b hb, h.head, homes,
      map_nil, replay_nil]
  · rw [w.view, update_of_ne (ne_of_inArea hslot hb).symm]
    exact h.view b hb
  · have hil : i < l.lh.length := by omega
    have hblock := (ne_of_inArea hslot (h.lh.block_outside hil)).symm
    rw [w.disk, w.view, update_of_ne hblock]
    by_cases hit : i = t
    · subst hit
      rw [update_self]
    · rw [update_of_ne fun he => hit (slot_injective he)]
      exact hw i (by omega)

/-! ### The commit point -/

/-- Once the log holds the transaction, writing the header makes the disk stand for the contents
with the transaction. -/
theorem Open.writeHead (h : Open d₀ st l cur ts) (hd : DiskOk d₀ st l ts)
    (hw : Written st l l.lh.length) :
    DiskOk d₀ (writeHead l st) l (ts ++ [cur]) ∧ Installing 0 (writeHead l st) l [] := by
  have w := writeHead_wrote l st
  have hhead : headOf ((Logging.writeHead l st).disk l.start) = l.lh := by
    rw [w.disk, update_self, headOf_setHead _ h.lh.length_le]
  have hstart := h.lh.inArea_start
  refine ⟨⟨by rw [hhead]; exact h.lh, fun b hb => ?_, w.clean hd.clean⟩,
    ⟨hhead, fun i hi => absurd hi (Nat.not_lt_zero i), fun b hb => ?_, rfl⟩⟩
  · -- outside the log area the new disk stands for what the processes read
    rw [contents_concat, ← h.view b hb, hhead]
    by_cases hmem : b ∈ homes l.lh
    · obtain ⟨i, hi, rfl⟩ := mem_homes_iff.mp hmem
      rw [← hw i hi]
      conv_lhs => rw [block_eq_get hi]
      rw [replay_getElem h.lh.nodup_homes, w.disk, update_of_ne (slot_ne_start i)]
    · have hne : b ≠ l.start := (ne_of_inArea hstart hb).symm
      have hnd : ¬ st.Dirty b := fun hdirty => hmem (h.dirty b hdirty)
      rw [replay_of_notMem hmem, w.disk, update_of_ne hne, Store.view_eq_disk hd.clean hnd]
  · obtain ⟨i, hi, hib⟩ := mem_homes_iff.mp (h.dirty b ((w.dirty b).mp hb).2)
    exact ⟨i, Nat.zero_le i, hi, hib⟩

/-! ### Copying the log home -/

theorem Installing.headOk (h : Installing t st l cur) (hd : DiskOk d₀ st l ts) :
    HeadOk l l.lh := h.head ▸ hd.head

theorem Installing.installTrans (h : Installing t st l cur) (hd : DiskOk d₀ st l ts)
    (ht : t < l.lh.length) :
    DiskOk d₀ (installTrans l t st) l ts ∧ Installing (t + 1) (installTrans l t st) l cur := by
  have hok := h.headOk hd
  have hout := hok.block_outside ht
  -- a log block is never pinned, so what is copied is the log block on the disk
  have hclean : st.view (l.slot t) = st.disk (l.slot t) := by
    refine Store.view_eq_disk hd.clean fun hdirty => ?_
    obtain ⟨i, -, hi, hib⟩ := h.dirty _ hdirty
    exact hok.block_outside hi (hib ▸ hok.inArea_slot ht)
  have w : st.Wrote (Logging.installTrans l t st) (l.block t) (st.disk (l.slot t)) :=
    hclean ▸ installTrans_wrote l t st
  have hslot : ∀ j < l.lh.length, l.slot j ≠ l.block t := fun j hj =>
    ne_of_inArea (hok.inArea_slot hj) hout
  have hhead : (Logging.installTrans l t st).disk l.start = st.disk l.start := by
    rw [w.disk, update_of_ne (ne_of_inArea hok.inArea_start hout)]
  have hreplay : replay l.slot (homes l.lh) (Logging.installTrans l t st).disk =
      replay l.slot (homes l.lh) st.disk := by
    rw [w.disk, block_eq_get ht]
    refine replay_install (by simpa using ht) fun j hj => ?_
    rw [← block_eq_get ht]
    exact hslot j (by simpa using hj)
  refine ⟨⟨by rw [hhead]; exact hd.head, fun b hb => ?_, w.clean hd.clean⟩,
    ⟨by rw [hhead]; exact h.head, fun i hi hil => ?_, fun b hb => ?_, h.current⟩⟩
  · rw [hhead, h.head, hreplay, ← h.head]
    exact hd.stands b hb
  · rw [w.disk, update_of_ne (hslot i hil)]
    by_cases hit : i = t
    · subst hit
      rw [update_self]
    · have hne : l.block i ≠ l.block t := by
        rw [block_eq_get hil, block_eq_get ht]
        exact fun he => hit (by simpa using (hok.nodup_homes.get_inj_iff).mp he)
      rw [update_of_ne hne]
      exact h.home i (by omega) hil
  · obtain ⟨hne, hdirty⟩ := (w.dirty b).mp hb
    obtain ⟨i, hti, hil, rfl⟩ := h.dirty b hdirty
    have hit : i ≠ t := fun he => hne (he ▸ rfl)
    exact ⟨i, by omega, hil, rfl⟩

theorem Installing.clear (h : Installing t st l cur) (ht : ¬ t < l.lh.length) :
    Cleared st { l with lh := [] } cur where
  lh := rfl
  home i hi := by
    have hi' : i < l.lh.length := by simpa [h.head] using hi
    have hblock : (homes (headOf (st.disk l.start))).get ⟨i, hi⟩ = l.block i := by
      rw [get_of_eq (congrArg homes h.head) ⟨i, hi⟩]
      exact (block_eq_get hi').symm
    exact (congrArg st.disk hblock).trans (h.home i (by omega) hi')
  dirty b hb := by
    obtain ⟨i, hti, hil, -⟩ := h.dirty b hb
    omega
  current := h.current

theorem Cleared.writeHead (h : Cleared st l cur) (hd : DiskOk d₀ st l ts) :
    DiskOk d₀ (writeHead l st) l ts ∧ Open d₀ (writeHead l st) l cur ts := by
  have w := writeHead_wrote l st
  have hhead : headOf ((Logging.writeHead l st).disk l.start) = [] := by
    rw [w.disk, update_self, h.lh, headOf_setHead_nil]
  have hempty : HeadOk l [] :=
    ⟨by simp, Nat.lt_of_le_of_lt (Nat.zero_le _) hd.head.length_lt, nodup_nil, by simp⟩
  have hstart := hempty.inArea_start
  have hsame : ∀ b, ¬ l.InArea b → (Logging.writeHead l st).disk b = contents ts d₀ b := by
    intro b hb
    rw [w.disk, update_of_ne (ne_of_inArea hstart hb).symm, ← hd.stands b hb,
      replay_eq_of_installed h.home]
  have hnd : ∀ b, ¬ (Logging.writeHead l st).Dirty b := fun b hb =>
    h.dirty b ((w.dirty b).mp hb).2
  refine ⟨⟨by rw [hhead]; exact hempty, fun b hb => ?_, w.clean hd.clean⟩,
    ⟨hhead, by rw [h.lh]; exact hempty, fun b hb => absurd hb (hnd b), by simp [h.current],
      fun b hb => ?_⟩⟩
  · rw [hhead, homes, map_nil, replay_nil]
    exact hsame b hb
  · rw [Store.view_eq_disk (w.clean hd.clean) (hnd b), h.current, map_nil, writes_nil]
    exact hsame b hb

end Components

end Dave.Logging
