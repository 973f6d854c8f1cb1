import Dave.Bcache.Transparent
import Dave.Logging.Recovery

/-!
# The size of the buffer pool

`bget` panics when every buffer has a reference or is dirty. The log limits how many buffers are
dirty, because only blocks of the log header are; but nothing limits how many processes hold a
buffer at a time, and there are more processes than buffers. If few enough processes hold buffers,
no process more than two of them, there is always a buffer left.

## Main results

* `held_step`: what a step does to the references of the processes.
* `Sparse.exists_free`: after a run whose steps are modest (`Modest`) there is a buffer left.
-/

namespace Dave.Bcache

variable {P : Type} [DecidableEq P]

/-! ### References of processes -/

/-- The number of references that process `p` has: the buffers it has locked, and the one it waits
for or is giving back. -/
def State.held (s : State P) (p : P) : ℕ := refsOf (fun i => (s.buf i).lock) (s.loc p).waits p

/-- The dirty buffers are for blocks in the log header. -/
def State.Logged (s : State P) : Prop :=
  ∀ i, (s.buf i).dirty = true → (s.buf i).blockno ∈ s.log.lh

variable [Fintype P] {s s' : State P} {p q : P}

theorem sum_refcnt (h : Inv s) : ∑ i, (s.buf i).refcnt = ∑ p, s.held p := by
  have hsum := sum_refs (fun i => (s.buf i).lock) fun p => (s.loc p).waits
  rw [← Finset.sum_congr rfl fun i _ => h.refcnt i] at hsum
  exact hsum

variable {i : Fin nBuf}

omit [Fintype P] in
theorem At.held (ha : At p i s s') (hq : q ≠ p) : s'.held q = s.held q := by
  rw [State.held, State.held, ha.loc q hq]
  refine refsOf_congr fun j => ?_
  by_cases hj : j = i
  · subst hj
    exact ha.lock q hq
  · rw [ha.buf j hj]

/-! ### What a step does to the buffers -/

/-- The number of buffers that an action asks for. -/
def Act.demand : Act → ℕ
  | .bread _ _ => 1
  | _ => 0

/-- The action `a` replaces buffer `i` by `b`. -/
structure Effect (a : Act) (s s' : State P) (i : Fin nBuf) (b : Buf P) : Prop where
  buf : s'.buf = Function.update s.buf i b
  refcnt : b.refcnt ≤ (s.buf i).refcnt + a.demand
  dirty : b.dirty = true →
    b.blockno ∈ s'.log.lh ∨ (s.buf i).dirty = true ∧ b.blockno = (s.buf i).blockno
  lh : (∀ log, a ≠ .setLog log) → s.log.lh ⊆ s'.log.lh
  setLog : ∀ log, a = .setLog log → s'.log = log ∧ b = s.buf i

variable {a : Act}

omit [Fintype P] [DecidableEq P] in
theorem Effect.of_update {b : Buf P} (hbuf : s'.buf = Function.update s.buf i b)
    (hrefcnt : b.refcnt ≤ (s.buf i).refcnt + a.demand) (hlog : s'.log = s.log)
    (hdirty : b.dirty = true → (s.buf i).dirty = true ∧ b.blockno = (s.buf i).blockno)
    (ha : ∀ log, a ≠ .setLog log) : Effect a s s' i b where
  buf := hbuf
  refcnt := hrefcnt
  dirty hb := .inr (hdirty hb)
  lh _ := by rw [hlog]; exact List.Subset.refl _
  setLog log heq := absurd heq (ha log)

theorem wp_effect (h : Inv s) {c : C P Unit} (hc : code p s (s.loc p) a = some c) :
    Wp (fun e => ¬ e.OfCaller) c (fun _ s' => ∃ i b, Effect a s s' i b) s := by
  generalize hp : s.loc p = l at hc
  unfold code at hc
  split at hc
  · cases hc
    simp only [bget, wp_bind, wp_get]
    split
    · exact ⟨_, _, .of_update rfl le_rfl rfl (fun hd => ⟨hd, rfl⟩) (by simp)⟩
    · split
      · exact ⟨_, _, .of_update rfl (Nat.le_add_left _ _) rfl (by simp) (by simp)⟩
      · exact by simp [Panic.OfCaller]
  · split_ifs at hc
    cases hc
    exact ⟨_, _, .of_update rfl le_rfl rfl (fun hd => ⟨hd, rfl⟩) (by simp)⟩
  · next i req =>
    split_ifs at hc with hvalid
    · cases hc
      exact ⟨i, s.buf i, .of_update (Function.update_eq_self i s.buf).symm le_rfl rfl
        (fun hd => ⟨hd, rfl⟩) (by simp)⟩
    · cases hc
      rw [wp_bind]
      exact wp_iderw (h.locked p _ (by rw [hp]; rfl)) (fun hv => absurd hv hvalid)
        fun _ _ => ⟨_, _, .of_update rfl le_rfl rfl (by simp) (by simp)⟩
  · cases hc
    rw [wp_bind]
    exact wp_iderwCopy
      (fun _ => ⟨_, _, .of_update rfl le_rfl rfl (fun hd => ⟨hd, rfl⟩) (by simp)⟩)
      fun _ => ⟨_, _, .of_update rfl le_rfl rfl (fun hd => ⟨hd, rfl⟩) (by simp)⟩
  · split_ifs at hc
    cases hc
    exact ⟨_, _, .of_update rfl le_rfl rfl (fun hd => ⟨hd, rfl⟩) (by simp)⟩
  · split_ifs at hc
    cases hc
    refine wp_logWrite fun log hlh => ⟨_, _, rfl, le_rfl, fun _ => .inl ?_, fun _ => ?_, by simp⟩
    · exact hlh ▸ Logging.mem_absorb_self _ _
    · exact hlh ▸ Logging.subset_absorb _ _
  · cases hc
    rw [wp_bind]
    exact wp_bwrite fun _ => ⟨_, _, .of_update rfl le_rfl rfl (by simp) (by simp)⟩
  · split_ifs at hc
    cases hc
    simp only [brelse, wp_bind, wp_get]
    split_ifs
    · exact by simp [Panic.OfCaller]
    · exact ⟨_, _, .of_update rfl le_rfl rfl (fun hd => ⟨hd, rfl⟩) (by simp)⟩
  · cases hc
    simp only [brelseDrop, wp_bind, wp_modifyBuf, wp_get]
    split_ifs
    · exact ⟨_, _, .of_update rfl (Nat.sub_le _ _) rfl (fun hd => ⟨hd, rfl⟩) (by simp)⟩
    · exact ⟨_, _, .of_update rfl (Nat.sub_le _ _) rfl (fun hd => ⟨hd, rfl⟩) (by simp)⟩
  · next log =>
    cases hc
    refine ⟨0, s.buf 0, (Function.update_eq_self 0 s.buf).symm, le_rfl, fun hd => .inr ⟨hd, rfl⟩,
      fun hne => absurd rfl (hne log), ?_⟩
    rintro _ ⟨⟩
    exact ⟨rfl, rfl⟩
  · cases hc

theorem held_step (h : Inv s) (hs : step s (p, a) = some s') :
    s'.held p ≤ s.held p + a.demand ∧ ∀ q, q ≠ p → s'.held q = s.held q := by
  obtain ⟨h', i, ha⟩ := Good.of_step h hs
  have hother (q : P) (hq : q ≠ p) : s'.held q = s.held q := ha.held hq
  refine ⟨?_, hother⟩
  obtain ⟨j, b, heff⟩ := step_of_wp hs fun _ hc => wp_effect h hc
  have hbufs := sum_update_add (fun _ (b : Buf P) => b.refcnt) s.buf j b
  have hrefs := heff.refcnt
  rw [← heff.buf, sum_refcnt h, sum_refcnt h'] at hbufs
  have hsum := sum_add_of_eq_of_ne p hother
  simp only at hbufs hrefs
  omega

/-! ### Steps that the pool is large enough for -/

/-- The number of processes that have references, with `p`. -/
def State.inFlight (s : State P) (p : P) : ℕ :=
  (Finset.univ.filter fun q => q = p ∨ 0 < s.held q).card

/-- What a step has to meet. A process that calls `bread` has at most one other buffer, and there
are two buffers for each process that has references besides those that the log can pin. The log
header is emptied only after the blocks in it have been written. -/
def Modest (s : State P) : P × Act → Prop
  | (p, .bread _ _) => s.held p ≤ 1 ∧ s.log.lh.length + 2 * s.inFlight p ≤ nBuf
  | (_, .setLog log) => ∀ i, (s.buf i).dirty = true → (s.buf i).blockno ∈ log.lh
  | _ => True

instance (s : State P) : (e : P × Act) → Decidable (Modest s e)
  | (p, .bread _ _) => inferInstanceAs (Decidable (s.held p ≤ 1 ∧ _ ≤ nBuf))
  | (_, .setLog log) => inferInstanceAs (Decidable (∀ i, _ → (s.buf i).blockno ∈ log.lh))
  | (_, .acquiresleep) => inferInstanceAs (Decidable True)
  | (_, .test) => inferInstanceAs (Decidable True)
  | (_, .copy) => inferInstanceAs (Decidable True)
  | (_, .modify _ _) => inferInstanceAs (Decidable True)
  | (_, .logWrite _) => inferInstanceAs (Decidable True)
  | (_, .bwrite _) => inferInstanceAs (Decidable True)
  | (_, .brelse _) => inferInstanceAs (Decidable True)
  | (_, .drop) => inferInstanceAs (Decidable True)

/-- What holds after a run whose steps are modest. -/
structure Sparse (s : State P) : Prop where
  inv : Inv s
  held : ∀ p, s.held p ≤ 2
  logged : s.Logged

theorem Sparse.step (h : Sparse s) {e : P × Act} (hok : Modest s e) (hs : step s e = some s') :
    Sparse s' := by
  obtain ⟨p, a⟩ := e
  obtain ⟨hp, hother⟩ := held_step h.inv hs
  obtain ⟨i, b, heff⟩ := step_of_wp hs fun _ hc => wp_effect h.inv hc
  refine ⟨(Good.of_step h.inv hs).1, fun q => ?_, fun j hj => ?_⟩
  · by_cases hq : q = p
    · subst hq
      have hle := h.held q
      cases a with
      | bread dev blockno =>
        have hone : s.held q ≤ 1 := hok.1
        simp only [Act.demand] at hp
        omega
      | _ =>
        simp only [Act.demand] at hp
        omega
    · rw [hother q hq]
      exact h.held q
  · -- a dirty buffer was dirty before, or its block has just been put into the header
    have hold : (s'.buf j).blockno ∈ s'.log.lh ∨
        (s.buf j).dirty = true ∧ (s'.buf j).blockno = (s.buf j).blockno := by
      rw [heff.buf] at hj ⊢
      by_cases hji : j = i
      · subst hji
        rw [Function.update_self] at hj ⊢
        exact heff.dirty hj
      · rw [Function.update_of_ne hji] at hj ⊢
        exact .inr ⟨hj, rfl⟩
    rcases hold with hmem | ⟨hd, hblock⟩
    · exact hmem
    · rw [hblock]
      by_cases ha : ∃ log, a = .setLog log
      · obtain ⟨log, rfl⟩ := ha
        rw [(heff.setLog log rfl).1]
        exact hok j hd
      · exact heff.lh (fun log hlog => ha ⟨log, hlog⟩) (h.logged j hd)

omit [DecidableEq P] in
theorem init_sparse (disk : Word → Block) (disksize : ℕ) (log : Logging.Log) [DecidableEq P] :
    Sparse (init disk disksize log : State P) where
  inv := init_inv disk disksize log
  held p := by simp [State.held, refsOf, init, Loc.waits]
  logged i hd := by simp [init] at hd

omit [DecidableEq P] in
theorem Inv.card_dirty_le (h : Inv s) (hlog : s.Logged) :
    (Finset.univ.filter fun i => (s.buf i).dirty = true).card ≤ s.log.lh.length := by
  refine le_trans ?_ (List.toFinset_card_le s.log.lh)
  refine Finset.card_le_card_of_injOn (fun i => (s.buf i).blockno) (fun i hi => ?_)
    fun i hi j hj heq => ?_
  · exact List.mem_toFinset.mpr (hlog i (Finset.mem_filter.mp hi).2)
  · -- dirty buffers are for blocks of disk 1
    have hdi := (Finset.mem_filter.mp hi).2
    have hdj := (Finset.mem_filter.mp hj).2
    by_contra hij
    refine h.ident_ne hij (.inr (.inr hdi)) (.inr (.inr hdj)) ?_
    rw [Buf.ident, Buf.ident, ((h.buf i).on_disk ((h.buf i).valid_of_dirty hdi)).1,
      ((h.buf j).on_disk ((h.buf j).valid_of_dirty hdj)).1]
    exact Prod.ext rfl heq

theorem Sparse.exists_free (h : Sparse s) (hp : s.held p ≤ 1)
    (hroom : s.log.lh.length + 2 * s.inFlight p ≤ nBuf) :
    ∃ i, (s.buf i).refcnt = 0 ∧ ¬ (s.buf i).dirty = true := by
  have hdirty := h.inv.card_dirty_le h.logged
  have hheld := sum_lt_two_mul_card h.held hp
  refine Dave.exists_free ?_
  rw [sum_refcnt h.inv, Fintype.card_fin]
  rw [State.inFlight] at hroom
  omega

omit [Fintype P] [DecidableEq P] in
theorem wp_bget_of_free (hmem : ∀ i, i ∈ s.order) (hrefcnt : (s.buf i).refcnt = 0)
    (hdirty : ¬ (s.buf i).dirty = true) (dev blockno : Word) :
    Wp (fun _ => False) (bget dev blockno) (fun _ _ => True) s := by
  simp only [bget, wp_bind, wp_get]
  split
  · trivial
  · split
    · trivial
    · next hnone =>
      have hi := List.find?_eq_none.mp hnone i (List.mem_reverse.mpr (hmem i))
      exact absurd (by simpa [hrefcnt] using hdirty) hi

/-- **The pool is large enough** for what is modest: after every run from `binit` whose steps are
modest, `bget` does not panic when a process that is modest calls it. -/
theorem bget_never_fails (disk : Word → Block) (disksize : ℕ) (log : Logging.Log)
    {es : List (P × Act)} {s : State P}
    (hrun : Run step Modest (init disk disksize log) es s) (p : P) (dev blockno : Word)
    (hok : Modest s (p, .bread dev blockno)) : bget dev blockno s ≠ .error .bgetNoBuffers := by
  have h : Sparse s := hrun.invariant (init_sparse disk disksize log) fun h => h.step
  obtain ⟨i, hrefcnt, hdirty⟩ := h.exists_free hok.1 hok.2
  obtain ⟨j, s', hbget, -⟩ := (wp_bget_of_free h.inv.mem_order hrefcnt hdirty dev blockno).exists_ok
  rw [hbget]
  simp

/-- The steps of `logAndCommit` are modest. -/
theorem bget_never_fails_logAndCommit : ∃ s : State Bool,
    Run step Modest (init (fun _ => 0) 1000 oneOutstanding) logAndCommit s ∧
    s.log.lh = [5] ∧ s.held true = 0 ∧ bget 1 6 s ≠ .error .bgetNoBuffers := by
  have hexec : (logAndCommit.foldlM (guarded step Modest)
      (init (fun _ => 0) 1000 oneOutstanding)).map
        (fun s => (s.log.lh, s.held true, decide (Modest s (true, .bread 1 6)))) =
      some ([5], 0, true) := by
    decide +kernel
  obtain ⟨s, hs, heq⟩ := Option.map_eq_some_iff.mp hexec
  obtain ⟨hlh, heq'⟩ := Prod.mk.inj heq
  obtain ⟨hheld, hok⟩ := Prod.mk.inj heq'
  have hrun := Run.of_foldlM hs
  exact ⟨s, hrun, hlh, hheld,
    bget_never_fails (fun _ => 0) 1000 oneOutstanding hrun true 1 6 (of_decide_eq_true hok)⟩

omit [Fintype P] [DecidableEq P] in
theorem bget_eq_error {dev blockno : Word} (hother : ∀ i, (s.buf i).ident ≠ (dev, blockno))
    (hrefcnt : ∀ i, (s.buf i).refcnt ≠ 0) : bget dev blockno s = .error .bgetNoBuffers := by
  have hfind :
      (s.order.find? fun i => (s.buf i).dev = dev ∧ (s.buf i).blockno = blockno) = none := by
    refine List.find?_eq_none.mpr fun i _ hi => hother i ?_
    obtain ⟨hdev, hblockno⟩ := of_decide_eq_true hi
    rw [Buf.ident, hdev, hblockno]
  have hfree : (s.order.reverse.find? fun i =>
      (s.buf i).refcnt = 0 ∧ (s.buf i).dirty = false) = none :=
    List.find?_eq_none.mpr fun i _ hi => hrefcnt i (of_decide_eq_true hi).1
  have hwp : Wp (fun e => e = .bgetNoBuffers) (bget dev blockno) (fun _ _ => False) s := by
    simp only [bget, wp_bind, wp_get, hfind, hfree, wp_throw]
  cases hb : bget dev blockno s with
  | error e => rw [hwp.of_error hb]
  | ok r => exact absurd hb fun hb => hwp.of_ok hb

/-- 30 processes call `bread` for different blocks, and are in `iderw`. -/
def readers : List (Fin 31 × Act) :=
  (List.finRange 30).flatMap fun k =>
    [(k.castSucc, .bread 1 (BitVec.ofNat 32 (100 + k.val))), (k.castSucc, .acquiresleep),
      (k.castSucc, .test)]

/-- There is no buffer left for another process, though nothing is dirty and no process has more
than one buffer. -/
theorem bget_fails : ∃ s : State (Fin 31),
    Runs (init (fun _ => 0) 1000 oneOutstanding) readers s ∧ s.loc (Fin.last 30) = .run ∧
    s.log.lh = [] ∧ (∀ p, s.held p ≤ 1) ∧ bget 1 130 s = .error .bgetNoBuffers := by
  have hexec : (readers.foldlM (guarded step anyEvent)
      (init (fun _ => 0) 1000 oneOutstanding)).map
        (fun s => (s.loc (Fin.last 30), s.log.lh, decide ((∀ p, s.held p ≤ 1) ∧
          (∀ i, (s.buf i).ident ≠ (1, 130)) ∧ ∀ i, (s.buf i).refcnt ≠ 0))) =
      some (.run, [], true) := by
    decide +kernel
  obtain ⟨s, hs, heq⟩ := Option.map_eq_some_iff.mp hexec
  obtain ⟨hloc, heq'⟩ := Prod.mk.inj heq
  obtain ⟨hlh, hbufs⟩ := Prod.mk.inj heq'
  obtain ⟨hheld, hother, hrefcnt⟩ := of_decide_eq_true hbufs
  exact ⟨s, Run.of_foldlM hs, hloc, hlh, hheld, bget_eq_error hother hrefcnt⟩

end Dave.Bcache
