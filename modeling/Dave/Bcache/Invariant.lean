import Dave.Bcache.Code
import Dave.Lib.Sums

/-!
# What holds in the buffer cache

A buffer counts its references: the process that has its lock, the processes that wait for the lock
in `bread`, and those that are about to drop their reference in `brelse`. As long as there is one,
the buffer remains what it is. No two buffers are for the same block, except that those that were
never used are all for block 0 of device 0; a buffer in use for that block comes before them in the
list, so `bget` finds it first.

The data of a valid buffer are what is stored in its block unless a process is changing them, and
the disk has what is stored in a block unless there is a buffer that has to be written or is being
written.
-/

namespace Dave.Bcache

variable {P : Type}

/-! ### References -/

/-- The buffer that a process has a reference for without its lock. -/
def Loc.waits : Loc → Option (Fin nBuf)
  | .busy i _ .acquire => some i
  | .busy i _ .release => some i
  | _ => none

/-- The buffer that a process works on in `bread` or `bwrite`. -/
def Loc.works : Loc → Option (Fin nBuf)
  | .busy i _ .test => some i
  | .busy i _ (.copy _) => some i
  | _ => none

/-- The process is in a call for buffer `i` or in none. -/
def Loc.Only (l : Loc) (i : Fin nBuf) : Prop := ∀ j r st, l = .busy j r st → j = i

theorem Loc.Only.waits {l : Loc} {i j : Fin nBuf} (h : l.Only i) (hw : l.waits = some j) :
    j = i := by
  cases l with
  | run => cases hw
  | busy k r st =>
    have hk := h k r st rfl
    cases st <;> simp_all [Loc.waits]

theorem Loc.Only.works {l : Loc} {i j : Fin nBuf} (h : l.Only i) (hw : l.works = some j) :
    j = i := by
  cases l with
  | run => cases hw
  | busy k r st =>
    have hk := h k r st rfl
    cases st <;> simp_all [Loc.works]

@[simp] theorem Loc.only_run (i : Fin nBuf) : Loc.run.Only i := nofun

@[simp] theorem Loc.only_busy (i : Fin nBuf) (r : Option (Word × Word)) (st : Stage) :
    (Loc.busy i r st).Only i := by
  rintro _ _ _ ⟨⟩
  rfl

namespace State

variable (s : State P)

/-- Buffer `i` has never been used. -/
def Idle (i : Fin nBuf) : Prop := (s.buf i).refcnt = 0 ∧ (s.buf i).valid = false

/-- Buffer `i` is being written to the disk. -/
def Writing (i : Fin nBuf) : Prop := ∃ p r, s.loc p = .busy i r (.copy true)

/-- Buffer `i` has contents of block `b` that have to be written or are being written. -/
def Pending (i : Fin nBuf) (b : Word) : Prop :=
  (s.buf i).valid = true ∧ (s.buf i).blockno = b ∧ ((s.buf i).dirty = true ∨ s.Writing i)

end State

/-- What holds for a buffer by itself. -/
structure BufOk (s : State P) (i : Fin nBuf) : Prop where
  valid_of_dirty : (s.buf i).dirty = true → (s.buf i).valid = true
  on_disk : (s.buf i).valid = true → (s.buf i).dev = disk1 ∧ (s.buf i).blockno.toNat < s.disksize
  held : ∀ p, (s.buf i).lock = some p → (s.loc p).works ≠ some i → (s.buf i).valid = true
  copying : ∀ p r w, s.loc p = .busy i r (.copy w) → (s.buf i).dev = disk1 ∧
    (s.buf i).blockno.toNat < s.disksize ∧ (s.buf i).valid = w ∧ (s.buf i).dirty = false
  unsaved : s.unsaved i = true → ∃ p, (s.buf i).lock = some p ∧ (s.loc p).works ≠ some i
  content : (s.buf i).valid = true → s.unsaved i = false →
    (s.buf i).data = s.stored (s.buf i).blockno
  fresh : s.Idle i → (s.buf i).ident = (0, 0)

structure Inv [Fintype P] (s : State P) : Prop where
  nodup : s.order.Nodup
  mem_order : ∀ i, i ∈ s.order
  refcnt : ∀ i, (s.buf i).refcnt =
    (if (s.buf i).lock = none then 0 else 1) + ∑ p, if (s.loc p).waits = some i then 1 else 0
  locked : ∀ p i, (s.loc p).works = some i → (s.buf i).lock = some p
  named : ∀ p i r st, s.loc p = .busy i (some r) st → (s.buf i).ident = r
  released : ∀ p i r, s.loc p = .busy i r .release → (s.buf i).valid = true ∧ r = none
  buf : ∀ i, BufOk s i
  unique : ∀ i j, i ≠ j → (s.buf i).ident = (s.buf j).ident → s.Idle i ∨ s.Idle j
  first : ∀ i j, ¬ s.Idle i → s.Idle j → (s.buf i).ident = (0, 0) → List.Sublist [i, j] s.order
  disk : ∀ b, (∃ i, s.Pending i b) ∨ s.disk b = s.stored b

/-! ### Steps that concern one buffer -/

/-- Process `p` makes a step that concerns buffer `i` only. A buffer that is dirty or has references
remains for the same block. -/
structure At (p : P) (i : Fin nBuf) (s s' : State P) : Prop where
  buf : ∀ j, j ≠ i → s'.buf j = s.buf j
  loc : ∀ q, q ≠ p → s'.loc q = s.loc q
  unsaved : ∀ j, j ≠ i → s'.unsaved j = s.unsaved j
  disksize : s'.disksize = s.disksize
  only : (s.loc p).Only i
  only' : (s'.loc p).Only i
  lock : ∀ q, q ≠ p → ((s'.buf i).lock = some q ↔ (s.buf i).lock = some q)
  ident : (s.buf i).dirty = true ∨ 0 < (s.buf i).refcnt → (s'.buf i).ident = (s.buf i).ident

section Frame

variable {s s' : State P} {p q : P} {i j : Fin nBuf}

theorem At.of_update [DecidableEq P] {b : Buf P} {l : Loc}
    (hbuf : s'.buf = Function.update s.buf i b)
    (hloc : s'.loc = Function.update s.loc p l)
    (hunsaved : ∀ j, j ≠ i → s'.unsaved j = s.unsaved j) (hsize : s'.disksize = s.disksize)
    (honly : (s.loc p).Only i) (honly' : l.Only i)
    (hlock : ∀ q, q ≠ p → (b.lock = some q ↔ (s.buf i).lock = some q))
    (hident : (s.buf i).dirty = true ∨ 0 < (s.buf i).refcnt → b.ident = (s.buf i).ident) :
    At p i s s' where
  buf j hj := by rw [hbuf, Function.update_of_ne hj]
  loc q hq := by rw [hloc, Function.update_of_ne hq]
  unsaved := hunsaved
  disksize := hsize
  only := honly
  only' := by rwa [hloc, Function.update_self]
  lock q hq := by
    rw [hbuf, Function.update_self]
    exact hlock q hq
  ident hi := by
    rw [hbuf, Function.update_self]
    exact hident hi

theorem At.idle_iff (h : At p i s s') (hj : j ≠ i) : s'.Idle j ↔ s.Idle j := by
  rw [State.Idle, State.Idle, h.buf j hj]

theorem At.works_iff (h : At p i s s') (hj : j ≠ i) :
    (s'.loc q).works = some j ↔ (s.loc q).works = some j := by
  by_cases hq : q = p
  · subst hq
    exact ⟨fun hw => absurd (h.only'.works hw) hj, fun hw => absurd (h.only.works hw) hj⟩
  · rw [h.loc q hq]

theorem At.busy_iff (h : At p i s s') (hj : j ≠ i) {r : Option (Word × Word)} {st : Stage} :
    s'.loc q = .busy j r st ↔ s.loc q = .busy j r st := by
  by_cases hq : q = p
  · subst hq
    exact ⟨fun hw => absurd (h.only' _ _ _ hw) hj, fun hw => absurd (h.only _ _ _ hw) hj⟩
  · rw [h.loc q hq]

theorem At.pending_iff (h : At p i s s') (hj : j ≠ i) {b : Word} :
    s'.Pending j b ↔ s.Pending j b := by
  simp only [State.Pending, State.Writing, h.buf j hj, h.busy_iff hj]

theorem BufOk.at (hok : BufOk s j) (h : At p i s s') (hj : j ≠ i)
    (hstored : (s.buf j).valid = true → s'.stored (s.buf j).blockno = s.stored (s.buf j).blockno) :
    BufOk s' j where
  valid_of_dirty := by
    rw [h.buf j hj]
    exact hok.valid_of_dirty
  on_disk := by
    rw [h.buf j hj, h.disksize]
    exact hok.on_disk
  held q := by
    rw [h.buf j hj, ne_eq, h.works_iff hj]
    exact hok.held q
  copying q r w := by
    rw [h.buf j hj, h.disksize, h.busy_iff hj]
    exact hok.copying q r w
  unsaved := by
    simp only [h.unsaved j hj, h.buf j hj, ne_eq, h.works_iff hj]
    exact hok.unsaved
  content hvalid := by
    rw [h.unsaved j hj]
    rw [h.buf j hj] at hvalid ⊢
    rw [hstored hvalid]
    exact hok.content hvalid
  fresh := by
    rw [h.idle_iff hj, h.buf j hj]
    exact hok.fresh

end Frame

theorem sublist_move {α : Type*} [DecidableEq α] {l : List α} {a b c : α} (ha : a ≠ c)
    (hb : b ≠ c) (h : List.Sublist [a, b] l) : List.Sublist [a, b] (c :: l.erase c) := by
  have herase := h.erase c
  rw [List.erase_cons_tail (by simpa using ha), List.erase_cons_tail (by simpa using hb),
    List.erase_nil] at herase
  exact herase.cons c

section Step

variable [Fintype P] {s s' : State P} {p q : P} {i j : Fin nBuf}

theorem Inv.pos_of_waits (h : Inv s) (hw : (s.loc p).waits = some i) : 0 < (s.buf i).refcnt := by
  rw [h.refcnt i]
  refine Nat.add_pos_right _ (Finset.sum_pos' (fun _ _ => Nat.zero_le _) ⟨p, Finset.mem_univ p, ?_⟩)
  rw [if_pos hw]
  exact Nat.one_pos

theorem Inv.pos_of_lock (h : Inv s) (hl : (s.buf i).lock = some p) : 0 < (s.buf i).refcnt := by
  rw [h.refcnt i, if_neg (by simp [hl])]
  exact Nat.add_pos_left Nat.one_pos _

theorem Inv.pos_of_busy (h : Inv s) {r : Option (Word × Word)} {st : Stage}
    (hb : s.loc p = .busy i r st) : 0 < (s.buf i).refcnt := by
  cases st with
  | acquire | release => exact h.pos_of_waits (p := p) (by rw [hb]; rfl)
  | test | copy w => exact h.pos_of_lock (h.locked p i (by rw [hb]; rfl))

theorem Inv.at [DecidableEq P] (h : Inv s) (ha : At p i s s')
    (horder : s'.order = s.order ∨ (s.buf i).valid = true ∧ s'.order = i :: s.order.erase i)
    (hcount : (s'.buf i).refcnt + (if (s.buf i).lock = none then 0 else 1) +
        (if (s.loc p).waits = some i then 1 else 0) =
      (s.buf i).refcnt + (if (s'.buf i).lock = none then 0 else 1) +
        if (s'.loc p).waits = some i then 1 else 0)
    (hworks : (s'.loc p).works = some i → (s'.buf i).lock = some p)
    (hnamed : ∀ r st, s'.loc p = .busy i (some r) st → (s'.buf i).ident = r)
    (hreleased : ∀ r, s'.loc p = .busy i r .release → (s'.buf i).valid = true ∧ r = none)
    (hvalid : 0 < (s.buf i).refcnt → (s.buf i).valid = true → (s'.buf i).valid = true)
    (hok : BufOk s' i)
    (hunique : ∀ j, j ≠ i → (s'.buf i).ident = (s.buf j).ident → s'.Idle i ∨ s.Idle j)
    (hidle : s'.Idle i → s.Idle i)
    (hfirst : ¬ s'.Idle i → (s'.buf i).ident = (0, 0) → ∀ j, j ≠ i → s.Idle j →
      List.Sublist [i, j] s'.order)
    (hstored : s'.stored = s.stored ∨ (s.buf i).valid = true ∧
      ∀ b, b ≠ (s.buf i).blockno → s'.stored b = s.stored b)
    (hdisk : ∀ b, s.Pending i b ∨ s.disk b = s.stored b →
      s'.Pending i b ∨ s'.disk b = s'.stored b) : Inv s' where
  nodup := by
    rcases horder with ho | ⟨-, ho⟩
    · rw [ho]
      exact h.nodup
    · rw [ho, List.nodup_cons]
      exact ⟨h.nodup.not_mem_erase, h.nodup.erase i⟩
  mem_order j := by
    rcases horder with ho | ⟨-, ho⟩
    · rw [ho]
      exact h.mem_order j
    · rw [ho, List.mem_cons]
      by_cases hj : j = i
      · exact .inl hj
      · exact .inr ((List.mem_erase_of_ne hj).mpr (h.mem_order j))
  refcnt j := by
    by_cases hj : j = i
    · subst hj
      have hsum := sum_add_of_eq_of_ne (f := fun q => if (s.loc q).waits = some j then 1 else 0)
        (g := fun q => if (s'.loc q).waits = some j then 1 else 0) p
        fun q hq => by rw [ha.loc q hq]
      have hold := h.refcnt j
      omega
    · rw [ha.buf j hj, h.refcnt j]
      congr 1
      refine Finset.sum_congr rfl fun q _ => ?_
      by_cases hq : q = p
      · subst hq
        rw [if_neg fun hw => hj (ha.only.waits hw), if_neg fun hw => hj (ha.only'.waits hw)]
      · rw [ha.loc q hq]
  locked q j hw := by
    by_cases hj : j = i
    · subst hj
      by_cases hq : q = p
      · subst hq
        exact hworks hw
      · rw [ha.loc q hq] at hw
        exact (ha.lock q hq).mpr (h.locked q j hw)
    · rw [ha.works_iff hj] at hw
      rw [ha.buf j hj]
      exact h.locked q j hw
  named q j r st hb := by
    by_cases hj : j = i
    · subst hj
      by_cases hq : q = p
      · subst hq
        exact hnamed r st hb
      · rw [ha.loc q hq] at hb
        rw [ha.ident (.inr (h.pos_of_busy hb))]
        exact h.named q j r st hb
    · rw [ha.busy_iff hj] at hb
      rw [ha.buf j hj]
      exact h.named q j r st hb
  released q j r hb := by
    by_cases hj : j = i
    · subst hj
      by_cases hq : q = p
      · subst hq
        exact hreleased r hb
      · rw [ha.loc q hq] at hb
        have hold := h.released q j r hb
        exact ⟨hvalid (h.pos_of_busy hb) hold.1, hold.2⟩
    · rw [ha.busy_iff hj] at hb
      rw [ha.buf j hj]
      exact h.released q j r hb
  buf j := by
    by_cases hj : j = i
    · subst hj
      exact hok
    · refine (h.buf j).at ha hj fun hvj => ?_
      rcases hstored with hst | ⟨hvi, hst⟩
      · rw [hst]
      · -- a valid buffer for the same block would be the same buffer
        refine hst _ fun hb => ?_
        have hident : (s.buf j).ident = (s.buf i).ident := by
          rw [Buf.ident, Buf.ident, ((h.buf j).on_disk hvj).1, ((h.buf i).on_disk hvi).1, hb]
        rcases h.unique j i hj hident with hidle | hidle
        · simp [hidle.2] at hvj
        · simp [hidle.2] at hvi
  unique a b hab heq := by
    by_cases hai : a = i
    · subst hai
      have hb : b ≠ a := Ne.symm hab
      rw [ha.idle_iff hb]
      rw [ha.buf b hb] at heq
      exact hunique b hb heq
    · by_cases hbi : b = i
      · subst hbi
        rw [ha.idle_iff hai]
        rw [ha.buf a hai] at heq
        exact (hunique a hai heq.symm).symm
      · rw [ha.idle_iff hai, ha.idle_iff hbi]
        rw [ha.buf a hai, ha.buf b hbi] at heq
        exact h.unique a b hab heq
  first a b hna hb heq := by
    by_cases hai : a = i
    · subst hai
      have hba : b ≠ a := by
        rintro rfl
        exact hna hb
      exact hfirst hna heq b hba ((ha.idle_iff hba).mp hb)
    · rw [ha.idle_iff hai] at hna
      rw [ha.buf a hai] at heq
      by_cases hbi : b = i
      · subst hbi
        have hold := h.first a b hna (hidle hb) heq
        rcases horder with ho | ⟨hv, -⟩
        · rwa [ho]
        · simp [(hidle hb).2] at hv
      · have hold := h.first a b hna ((ha.idle_iff hbi).mp hb) heq
        rcases horder with ho | ⟨-, ho⟩
        · rwa [ho]
        · rw [ho]
          exact sublist_move hai hbi hold
  disk b := by
    rcases h.disk b with ⟨j, hj⟩ | heq
    · by_cases hji : j = i
      · subst hji
        exact (hdisk b (.inl hj)).imp_left fun hp => ⟨j, hp⟩
      · exact .inl ⟨j, (ha.pending_iff hji).mpr hj⟩
    · exact (hdisk b (.inr heq)).imp_left fun hp => ⟨i, hp⟩

theorem Inv.at_used [DecidableEq P] (h : Inv s) (ha : At p i s s') (hused : ¬ s.Idle i)
    (hused' : ¬ s'.Idle i)
    (hident : (s'.buf i).ident = (s.buf i).ident)
    (horder : s'.order = s.order ∨ (s.buf i).valid = true ∧ s'.order = i :: s.order.erase i)
    (hcount : (s'.buf i).refcnt + (if (s.buf i).lock = none then 0 else 1) +
        (if (s.loc p).waits = some i then 1 else 0) =
      (s.buf i).refcnt + (if (s'.buf i).lock = none then 0 else 1) +
        if (s'.loc p).waits = some i then 1 else 0)
    (hworks : (s'.loc p).works = some i → (s'.buf i).lock = some p)
    (hnamed : ∀ r st, s'.loc p = .busy i (some r) st → ∃ st', s.loc p = .busy i (some r) st')
    (hreleased : ∀ r, s'.loc p = .busy i r .release → (s'.buf i).valid = true ∧ r = none)
    (hvalid : (s.buf i).valid = true → (s'.buf i).valid = true) (hok : BufOk s' i)
    (hstored : s'.stored = s.stored ∨ (s.buf i).valid = true ∧
      ∀ b, b ≠ (s.buf i).blockno → s'.stored b = s.stored b)
    (hdisk : ∀ b, s.Pending i b ∨ s.disk b = s.stored b →
      s'.Pending i b ∨ s'.disk b = s'.stored b) : Inv s' := by
  refine h.at ha horder hcount hworks (fun r st hb => ?_) hreleased (fun _ => hvalid) hok
    (fun j hj heq => ?_) (fun hi => absurd hi hused') (fun _ heq j hj hidle => ?_) hstored hdisk
  · obtain ⟨st', hb'⟩ := hnamed r st hb
    exact hident.trans (h.named p i r st' hb')
  · exact .inr ((h.unique i j (Ne.symm hj) (hident.symm.trans heq)).resolve_left hused)
  · have hold := h.first i j hused hidle (hident.symm.trans heq)
    rcases horder with ho | ⟨-, ho⟩
    · rwa [ho]
    · rw [ho]
      have hmem : [j].Sublist (s.order.erase i) :=
        List.singleton_sublist.mpr ((List.mem_erase_of_ne hj).mpr (h.mem_order j))
      exact hmem.cons_cons i

theorem BufOk.of_lock (h : Inv s) (ha : At p i s s') (hl : (s'.buf i).lock = some p)
    (hdirty : (s'.buf i).dirty = true → (s'.buf i).valid = true)
    (hdisk : (s'.buf i).valid = true →
      (s'.buf i).dev = disk1 ∧ (s'.buf i).blockno.toNat < s'.disksize)
    (hheld : (s'.loc p).works ≠ some i → (s'.buf i).valid = true)
    (hcopy : ∀ r w, s'.loc p = .busy i r (.copy w) → (s'.buf i).dev = disk1 ∧
      (s'.buf i).blockno.toNat < s'.disksize ∧ (s'.buf i).valid = w ∧ (s'.buf i).dirty = false)
    (hunsaved : s'.unsaved i = true → (s'.loc p).works ≠ some i)
    (hcontent : (s'.buf i).valid = true → s'.unsaved i = false →
      (s'.buf i).data = s'.stored (s'.buf i).blockno) (hidle : ¬ s'.Idle i) : BufOk s' i where
  valid_of_dirty := hdirty
  on_disk := hdisk
  held q hq := by
    obtain rfl : p = q := Option.some.inj (hl.symm.trans hq)
    exact hheld
  copying q r w hb := by
    have hq : q = p := by
      by_contra hq
      have hlock := h.locked q i (by rw [← ha.loc q hq, hb]; rfl)
      rw [← ha.lock q hq, hl] at hlock
      exact hq (Option.some.inj hlock).symm
    subst hq
    exact hcopy r w hb
  unsaved hu := ⟨p, hl, hunsaved hu⟩
  content := hcontent
  fresh hi := absurd hi hidle

theorem BufOk.of_same (h : Inv s) (ha : At p i s s')
    (hlock : (s'.buf i).lock = (s.buf i).lock ∨ (s'.buf i).lock = none ∧ s.unsaved i = false)
    (hvalid : (s'.buf i).valid = (s.buf i).valid) (hdirty : (s'.buf i).dirty = (s.buf i).dirty)
    (hident : (s'.buf i).ident = (s.buf i).ident) (hdata : (s'.buf i).data = (s.buf i).data)
    (hworks : (s.loc p).works = none) (hworks' : (s'.loc p).works = none)
    (hunsaved : s'.unsaved i = s.unsaved i) (hstored : s'.stored = s.stored)
    (hidle : ¬ s'.Idle i) : BufOk s' i := by
  have hok := h.buf i
  obtain ⟨hdev, hblockno⟩ := Prod.mk.inj hident
  have hw (q : P) : (s'.loc q).works = (s.loc q).works := by
    by_cases hq : q = p
    · rw [hq, hworks, hworks']
    · rw [ha.loc q hq]
  refine ⟨?_, ?_, fun q hq => ?_, fun q r w hb => ?_, fun hu => ?_, ?_, fun hi => absurd hi hidle⟩
  · rw [hdirty, hvalid]
    exact hok.valid_of_dirty
  · rw [hvalid, hdev, hblockno, ha.disksize]
    exact hok.on_disk
  · rw [hw, hvalid]
    rcases hlock with hl | ⟨hl, -⟩
    · exact hok.held q (hl ▸ hq)
    · rw [hl] at hq
      cases hq
  · have hq : q ≠ p := by
      rintro rfl
      rw [hb] at hworks'
      cases hworks'
    rw [hdev, hblockno, ha.disksize, hvalid, hdirty]
    exact hok.copying q r w (by rw [← ha.loc q hq, hb])
  · rw [hunsaved] at hu
    obtain ⟨q, hq, hne⟩ := hok.unsaved hu
    rcases hlock with hl | ⟨-, hsaved⟩
    · exact ⟨q, hl.trans hq, by rwa [hw]⟩
    · rw [hsaved] at hu
      cases hu
  · rw [hvalid, hunsaved, hdata, hblockno, hstored]
    exact hok.content

omit [Fintype P] in
theorem At.pending (ha : At p i s s') (hdisk : s'.disk = s.disk) (hstored : s'.stored = s.stored)
    (hvalid : (s'.buf i).valid = (s.buf i).valid) (hdirty : (s'.buf i).dirty = (s.buf i).dirty)
    (hident : (s'.buf i).ident = (s.buf i).ident) (hp : ∀ r, s.loc p ≠ .busy i r (.copy true))
    (b : Word) (h : s.Pending i b ∨ s.disk b = s.stored b) :
    s'.Pending i b ∨ s'.disk b = s'.stored b := by
  rw [hdisk, hstored]
  refine h.imp_left fun ⟨hv, hb, hw⟩ => ⟨hvalid ▸ hv, ?_, ?_⟩
  · rw [← hb]
    exact congrArg Prod.snd hident
  · rw [hdirty]
    refine hw.imp_right fun ⟨q, r, hq⟩ => ⟨q, r, ?_⟩
    have hqp : q ≠ p := by
      rintro rfl
      exact hp r hq
    rw [ha.loc q hqp, hq]

theorem Inv.not_idle_of_busy (h : Inv s) {r : Option (Word × Word)} {st : Stage}
    (hb : s.loc p = .busy i r st) : ¬ s.Idle i := fun hi => (h.pos_of_busy hb).ne' hi.1

theorem Inv.not_idle_of_lock (h : Inv s) (hl : (s.buf i).lock = some p) : ¬ s.Idle i :=
  fun hi => (h.pos_of_lock hl).ne' hi.1

end Step

end Dave.Bcache
