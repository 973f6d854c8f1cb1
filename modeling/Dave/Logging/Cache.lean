import Dave.Logging.Machine

/-!
# The buffer cache under the log

What the block operations of `log.c` do to the disk, to the contents the processes read
(`Store.view`) and to the pinned buffers. Reading a block changes none of the three
(`Store.bread_same`); `write_log`, `write_head` and `install_trans` write one block each
(`writeLog_wrote`, `writeHead_wrote`, `installTrans_wrote`).
-/

namespace Dave.Logging

namespace Store

/-- Block `b` has a buffer with `B_DIRTY` set. -/
def Dirty (st : Store) (b : ℕ) : Prop := ∃ d, st.cache b = some ⟨d, true⟩

/-- Every buffer without `B_DIRTY` holds the contents of its disk block. -/
def Clean (st : Store) : Prop := ∀ b d, st.cache b = some ⟨d, false⟩ → d = st.disk b

theorem view_def (st : Store) (b : ℕ) : st.view b = match st.cache b with
      | some buf => buf.data
      | none => st.disk b := by
  unfold view bread
  cases st.cache b <;> rfl

variable {st : Store} {b : ℕ}

theorem view_eq_disk (hc : st.Clean) (hb : ¬ st.Dirty b) : st.view b = st.disk b := by
  rw [view_def]
  rcases hcache : st.cache b with _ | ⟨d, dirty⟩
  · rfl
  · cases dirty with
    | false => exact hc b d hcache
    | true => exact absurd ⟨d, hcache⟩ hb

/-- Two stores that agree on the disk, on what is read and on what is pinned. -/
structure Same (st st' : Store) : Prop where
  disk : st'.disk = st.disk
  view : st'.view = st.view
  dirty : ∀ b, st'.Dirty b ↔ st.Dirty b
  clean : st.Clean → st'.Clean

theorem Same.trans {st' st'' : Store} (h : Same st st') (h' : Same st' st'') : Same st st'' where
  disk := h'.disk.trans h.disk
  view := h'.view.trans h.view
  dirty b := (h'.dirty b).trans (h.dirty b)
  clean hc := h'.clean (h.clean hc)

/-- The store after block `b` was written with `v`. -/
structure Wrote (st st' : Store) (b : ℕ) (v : Block) : Prop where
  disk : st'.disk = Function.update st.disk b v
  view : st'.view = Function.update st.view b v
  dirty : ∀ x, st'.Dirty x ↔ x ≠ b ∧ st.Dirty x
  clean : st.Clean → st'.Clean

theorem bread_same (st : Store) (b : ℕ) : Same st (st.bread b).2 := by
  unfold bread
  cases hcache : st.cache b with
  | some buf => exact ⟨rfl, rfl, fun _ => .rfl, id⟩
  | none =>
    refine ⟨rfl, ?_, fun x => ?_, fun hc x d hx => ?_⟩
    · funext x
      rw [view_def, view_def]
      by_cases h : x = b
      · subst h
        simp [hcache]
      · simp [h]
    · by_cases h : x = b
      · subst h
        simp [Dirty, hcache]
      · simp [Dirty, h]
    · by_cases h : x = b
      · subst h
        simpa using hx.symm
      · exact hc x d (by simpa [h] using hx)

theorem bwrite_wrote (st : Store) (b : ℕ) (v : Block) : Wrote st (st.bwrite b v) b v := by
  refine ⟨rfl, ?_, fun x => ?_, fun hc x d hx => ?_⟩
  · funext x
    rw [view_def]
    by_cases h : x = b
    · subst h
      simp [bwrite]
    · simp [bwrite, h, view_def]
  · by_cases h : x = b
    · subst h
      simp [bwrite, Dirty]
    · simp [bwrite, Dirty, h]
  · by_cases h : x = b
    · subst h
      simpa [bwrite] using hx.symm
    · simpa [bwrite, h] using hc x d (by simpa [bwrite, h] using hx)

theorem Wrote.of_same {st' st'' : Store} {v : Block} (h : Same st st') (hw : Wrote st' st'' b v) :
    Wrote st st'' b v where
  disk := by rw [hw.disk, h.disk]
  view := by rw [hw.view, h.view]
  dirty x := by rw [hw.dirty, h.dirty]
  clean hc := hw.clean (h.clean hc)

theorem recycle_same (hc : st.Clean) {d : Block} (hb : st.cache b = some ⟨d, false⟩) :
    Same st { st with cache := Function.update st.cache b none } := by
  refine ⟨rfl, ?_, fun x => ?_, fun _ x d' hx => ?_⟩
  · funext x
    rw [view_def, view_def]
    by_cases h : x = b
    · subst h
      simp [hb, hc x d hb]
    · simp [h]
  · by_cases h : x = b
    · subst h
      simp [Dirty, hb]
    · simp [Dirty, h]
  · by_cases h : x = b
    · subst h
      simp at hx
    · exact hc x d' (by simpa [h] using hx)

theorem pin_view (st : Store) (b : ℕ) (v : Block) :
    (st.pin b v).view = Function.update st.view b v := by
  funext x
  rw [view_def]
  by_cases h : x = b
  · subst h
    simp [pin]
  · simp [pin, h, view_def]

theorem pin_dirty (st : Store) (b : ℕ) (v : Block) (x : ℕ) :
    (st.pin b v).Dirty x ↔ x = b ∨ st.Dirty x := by
  by_cases h : x = b
  · subst h
    simp [pin, Dirty]
  · simp [pin, Dirty, h]

theorem pin_clean (hc : st.Clean) (b : ℕ) (v : Block) : (st.pin b v).Clean := by
  intro x d hx
  by_cases h : x = b
  · subst h
    simp [pin] at hx
  · exact hc x d (by simpa [pin, h] using hx)

end Store

/-! ### The block writes of the log -/

theorem writeLog_wrote (l : Log) (tail : ℕ) (st : Store) :
    st.Wrote (writeLog l tail st) (l.start + tail + 1) (st.view (l.block tail)) := by
  have h1 := st.bread_same (l.start + tail + 1)
  have h2 := h1.trans ((st.bread (l.start + tail + 1)).2.bread_same (l.block tail))
  have hv : ((st.bread (l.start + tail + 1)).2.bread (l.block tail)).1 = st.view (l.block tail) :=
    congrFun h1.view (l.block tail)
  have hw := Store.Wrote.of_same h2 (Store.bwrite_wrote _ (l.start + tail + 1)
    ((st.bread (l.start + tail + 1)).2.bread (l.block tail)).1)
  rw [hv] at hw
  rw [writeLog, hv]
  exact hw

theorem writeHead_wrote (l : Log) (st : Store) :
    st.Wrote (writeHead l st) l.start (setHead (st.view l.start) l.lh) :=
  Store.Wrote.of_same (st.bread_same l.start) (Store.bwrite_wrote _ _ _)

theorem installTrans_wrote (l : Log) (tail : ℕ) (st : Store) :
    st.Wrote (installTrans l tail st) (l.block tail) (st.view (l.start + tail + 1)) :=
  Store.Wrote.of_same ((st.bread_same _).trans ((st.bread _).2.bread_same _))
    (Store.bwrite_wrote _ _ _)

end Dave.Logging
