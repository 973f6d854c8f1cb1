import Dave.Bcache.Steps
import Dave.Logging.Cache

/-!
# The buffer cache is transparent

For the processes the cache and the disk are one array of blocks: `bread` returns what the latest
`log_write` or `bwrite` of the block stored. There is never more than one buffer in use for a block,
a buffer that is in use or has to be written is not recycled, and a buffer that is valid, clean and
not locked has the contents of its block on the disk.
-/

namespace Dave.Bcache

variable {P : Type} {s s' : State P} {p : P} {i j : Fin nBuf}

/-- The block that an action stores, and its contents. -/
def stores (s : State P) : Act → Option (Word × Block)
  | .logWrite i => some ((s.buf i).blockno, (s.buf i).data)
  | .bwrite i => some ((s.buf i).blockno, (s.buf i).data)
  | _ => none

/-- An array of blocks after a store. -/
def applyStore (a : Word → Block) : Option (Word × Block) → Word → Block
  | some (b, d) => Function.update a b d
  | none => a

/-- In a step from `s` to `s'`, the call `bread(dev, blockno)` of process `p` returns buffer `i`. -/
def Returns (s s' : State P) (p : P) (dev blockno : Word) (i : Fin nBuf) : Prop :=
  (∃ st, s.loc p = .busy i (some (dev, blockno)) st) ∧ s'.loc p = .run

/-- Buffer `i` is in use, valid or dirty. -/
def State.Used (s : State P) (i : Fin nBuf) : Prop :=
  0 < (s.buf i).refcnt ∨ (s.buf i).valid = true ∨ (s.buf i).dirty = true

section States

variable [Fintype P]

theorem Inv.not_idle_of_used (h : Inv s) (hi : s.Used i) : ¬ s.Idle i := by
  rintro ⟨hrefcnt, hvalid⟩
  rcases hi with hpos | hv | hd
  · exact hpos.ne' hrefcnt
  · rw [hvalid] at hv
    cases hv
  · rw [(h.buf i).valid_of_dirty hd] at hvalid
    cases hvalid

theorem Inv.ident_ne (h : Inv s) (hij : i ≠ j) (hi : s.Used i) (hj : s.Used j) :
    (s.buf i).ident ≠ (s.buf j).ident := by
  intro heq
  rcases h.unique i j hij heq with hidle | hidle
  · exact h.not_idle_of_used hi hidle
  · exact h.not_idle_of_used hj hidle

theorem Inv.data_eq_disk (h : Inv s) (hvalid : (s.buf i).valid = true)
    (hdirty : (s.buf i).dirty = false) (hlock : (s.buf i).lock = none) :
    (s.buf i).data = s.disk (s.buf i).blockno := by
  have hdisk : s.disk (s.buf i).blockno = s.stored (s.buf i).blockno := by
    refine (h.disk _).resolve_left ?_
    rintro ⟨j, hv, hb, hw⟩
    -- the buffer that has to be written would be this one
    have hji : j = i := by
      by_contra hji
      refine h.ident_ne hji (.inr (.inl hv)) (.inr (.inl hvalid)) ?_
      rw [Buf.ident, Buf.ident, ((h.buf j).on_disk hv).1, ((h.buf i).on_disk hvalid).1, hb]
    subst hji
    rcases hw with hd | ⟨q, r, hq⟩
    · rw [hdirty] at hd
      cases hd
    · have hl := h.locked q j (by rw [hq]; rfl)
      rw [hlock] at hl
      cases hl
  rw [hdisk]
  exact (h.buf i).content hvalid (h.unsaved_of_unlocked hlock)

/-! ### The cache as the log sees it -/

/-- The disk and the valid buffers by block number. -/
def State.store (s : State P) : Logging.Store where
  disk b := s.disk (BitVec.ofNat 32 b)
  cache b := ((List.finRange nBuf).find? fun i =>
    (s.buf i).valid = true ∧ (s.buf i).blockno.toNat = b).map fun i =>
      ⟨(s.buf i).data, (s.buf i).dirty⟩

omit [Fintype P] in
theorem State.store_cache_eq_some {b : ℕ} {x : Logging.Buf} (hx : s.store.cache b = some x) :
    ∃ i, (s.buf i).valid = true ∧ (s.buf i).blockno = BitVec.ofNat 32 b ∧
      x = ⟨(s.buf i).data, (s.buf i).dirty⟩ := by
  obtain ⟨i, hfind, rfl⟩ := Option.map_eq_some_iff.mp hx
  obtain ⟨hvalid, hb⟩ : (s.buf i).valid = true ∧ (s.buf i).blockno.toNat = b := by
    simpa using List.find?_some hfind
  exact ⟨i, hvalid, by rw [← hb, BitVec.ofNat_toNat, BitVec.setWidth_eq], rfl⟩

omit [Fintype P] in
theorem State.store_cache_eq_none {b : Word} (hx : s.store.cache b.toNat = none) (i : Fin nBuf)
    (hvalid : (s.buf i).valid = true) : (s.buf i).blockno ≠ b := by
  rintro rfl
  have hnone := List.find?_eq_none.mp (Option.map_eq_none_iff.mp hx) i (List.mem_finRange i)
  simp [hvalid] at hnone

theorem Inv.store_view (h : Inv s) (hsaved : ∀ i, s.unsaved i = false) (b : Word) :
    s.store.view b.toNat = s.stored b := by
  rw [Logging.Store.view_def]
  rcases hcache : s.store.cache b.toNat with _ | x
  · have hdisk : s.disk b = s.stored b := by
      refine (h.disk b).resolve_left ?_
      rintro ⟨i, hvalid, hb, -⟩
      exact State.store_cache_eq_none hcache i hvalid hb
    simpa [State.store] using hdisk
  · obtain ⟨i, hvalid, hb, rfl⟩ := State.store_cache_eq_some hcache
    rw [BitVec.ofNat_toNat, BitVec.setWidth_eq] at hb
    rw [← hb]
    exact (h.buf i).content hvalid (hsaved i)

theorem Inv.store_clean (h : Inv s) (hlock : ∀ i, (s.buf i).lock = none) : s.store.Clean := by
  intro b d hcache
  obtain ⟨i, hvalid, hb, hx⟩ := State.store_cache_eq_some hcache
  obtain ⟨rfl, hdirty⟩ := Logging.Buf.mk.inj hx
  rw [h.data_eq_disk hvalid hdirty.symm (hlock i), hb]
  rfl

end States

variable [DecidableEq P] [Fintype P]

/-- A step changes what is stored as its event says. -/
theorem wp_stored (h : Inv s) {a : Act} {c : C P Unit} (hc : code p s (s.loc p) a = some c) :
    Wp (fun e => ¬ e.OfCaller) c (fun _ s' => s'.stored = applyStore s.stored (stores s a)) s := by
  generalize hp : s.loc p = l at hc
  unfold code at hc
  split at hc
  · cases hc
    simp only [bget, wp_bind, wp_get]
    split
    · rfl
    · split
      · rfl
      · exact by simp [Panic.OfCaller]
  · split_ifs at hc
    cases hc
    rfl
  · split_ifs at hc with hvalid
    · cases hc
      rfl
    · cases hc
      rw [wp_bind]
      exact wp_iderw (h.locked p _ (by rw [hp]; rfl)) (fun hv => absurd hv hvalid) fun _ _ => rfl
  · cases hc
    rw [wp_bind]
    exact wp_iderwCopy (fun _ => rfl) fun _ => rfl
  · split_ifs at hc
    cases hc
    rfl
  · split_ifs at hc
    cases hc
    exact wp_logWrite fun _ _ => rfl
  · cases hc
    rw [wp_bind]
    exact wp_bwrite fun _ => rfl
  · split_ifs at hc
    cases hc
    simp only [brelse, wp_bind, wp_get]
    split_ifs
    · exact by simp [Panic.OfCaller]
    · rfl
  · cases hc
    simp only [brelseDrop, wp_bind, wp_modifyBuf, wp_get]
    split_ifs <;> rfl
  · cases hc
    rfl
  · cases hc

/-- `bread` returns a locked buffer with what is stored in the block. -/
theorem wp_returns (h : Inv s) {r : Word × Word} {st : Stage} (hp : s.loc p = .busy i (some r) st)
    {a : Act} {c : C P Unit} (hc : code p s (s.loc p) a = some c) :
    Wp (fun e => ¬ e.OfCaller) c (fun _ s' => s'.loc p = .run → (s'.buf i).ident = r ∧
      (s'.buf i).lock = some p ∧ (s'.buf i).valid = true ∧ (s'.buf i).data = s'.stored r.2) s := by
  have hident := h.named p i r st hp
  obtain ⟨dev, blockno⟩ := r
  obtain ⟨hdev, hblockno⟩ := Prod.mk.inj hident
  rw [hp] at hc
  cases st <;> cases a <;> try cases hc
  · -- `acquiresleep` does not return from `bread`
    simp only [code] at hc
    split_ifs at hc
    cases hc
    intro hrun
    simp at hrun
  · have hlock := h.locked p i (by rw [hp]; rfl)
    simp only [code] at hc
    split_ifs at hc with hvalid
    · cases hc
      refine fun _ => ⟨hident, hlock, hvalid, ?_⟩
      have hsaved := h.unsaved_of_works (p := p) (i := i) (by rw [hp]; rfl)
      simpa [hblockno] using (h.buf i).content hvalid hsaved
    · cases hc
      rw [wp_bind]
      refine wp_iderw hlock (fun hv => absurd hv hvalid) fun _ _ hrun => ?_
      simp at hrun
  · next w =>
    have hlock := h.locked p i (by rw [hp]; rfl)
    obtain ⟨-, -, hvalid, -⟩ := (h.buf i).copying p _ w hp
    have hsaved := h.unsaved_of_works (p := p) (i := i) (by rw [hp]; rfl)
    rw [wp_bind]
    refine wp_iderwCopy (fun hw _ => ?_) fun hw _ => ?_
    · have hcontent := (h.buf i).content (hvalid.trans hw) hsaved
      simpa [Buf.ident, hdev, hblockno, hlock] using hcontent
    · subst hw
      simpa [Buf.ident, hdev, hblockno, hlock] using (good_copyIn h hp).2
  · -- `brelse` is not for a request
    exact absurd (h.released p i _ hp).2 (by simp)

/-- **Transparency of the buffer cache.** In every state that a run from `binit` reaches:
* a step changes the array of blocks `stored`, which is first the disk, only by what it stores;
* a call of `bread` that returns has locked the buffer of the block, with what is stored in it;
* two buffers that are in use, valid or dirty are for different blocks;
* a step does not recycle a buffer that is dirty or has references;
* a buffer that is valid, clean and not locked has the contents of its block on the disk;
* no action panics because `iderw` is called without the lock or with nothing to do. -/
theorem cache_transparent (disk : Word → Block) (disksize : ℕ) (log : Logging.Log)
    {es : List (P × Act)} {s : State P} (hrun : Runs (init disk disksize log) es s) :
    (∀ p a s', step s (p, a) = some s' → s'.stored = applyStore s.stored (stores s a)) ∧
    (∀ e s' p dev blockno i, step s e = some s' → Returns s s' p dev blockno i →
      (s'.buf i).ident = (dev, blockno) ∧ (s'.buf i).lock = some p ∧ (s'.buf i).valid = true ∧
        (s'.buf i).data = s'.stored blockno) ∧
    (∀ i j, i ≠ j → s.Used i → s.Used j → (s.buf i).ident ≠ (s.buf j).ident) ∧
    (∀ e s' i, step s e = some s' → (s.buf i).dirty = true ∨ 0 < (s.buf i).refcnt →
      (s'.buf i).ident = (s.buf i).ident) ∧
    (∀ i, (s.buf i).valid = true → (s.buf i).dirty = false → (s.buf i).lock = none →
      (s.buf i).data = s.disk (s.buf i).blockno) ∧
    ∀ p a c e, code p s (s.loc p) a = some c → c s = .error e → ¬ e.OfCaller := by
  have h : Inv s := (init_inv disk disksize log).run hrun
  refine ⟨fun p a s' hs => step_of_wp hs fun c hc => wp_stored h hc, ?_,
    fun i j hij hi hj => h.ident_ne hij hi hj, ?_, fun i => h.data_eq_disk, ?_⟩
  · rintro e s' p dev blockno i hs ⟨⟨st, hp⟩, hret⟩
    obtain ⟨-, k, hat⟩ := Good.of_step h hs
    -- the others do not return from `bread` in this step
    have hpe : p = e.1 := by
      by_contra hpe
      rw [hat.loc p hpe, hp] at hret
      cases hret
    subst hpe
    exact step_of_wp hs (fun c hc => wp_returns h hp hc) hret
  · intro e s' i hs hi
    obtain ⟨-, k, hat⟩ := Good.of_step h hs
    by_cases hik : i = k
    · subst hik
      exact hat.ident hi
    · rw [hat.buf i hik]
  · intro p a c e hc he
    exact (good_code h hc).of_error he

/-- Process `false` logs a change of block 5. Process `true` commits it: it copies the block to
block 3 of the log, and installs it. Then `false` calls `bread` for the block. -/
def logAndCommit : List (Bool × Act) :=
  [(false, .bread 1 5), (false, .acquiresleep), (false, .test), (false, .copy),
    (false, .modify 0 7), (false, .logWrite 0), (false, .brelse 0), (false, .drop),
    (true, .bread 1 3), (true, .acquiresleep), (true, .test), (true, .copy),
    (true, .bread 1 5), (false, .bread 1 5), (true, .acquiresleep), (true, .test),
    (true, .modify 1 7), (true, .bwrite 1), (true, .copy), (true, .bwrite 0), (true, .copy),
    (true, .brelse 1), (true, .drop), (true, .brelse 0), (true, .drop), (false, .acquiresleep)]

/-- The log of a superblock with 30 log blocks, with one operation outstanding. -/
def oneOutstanding : Logging.Log := ⟨2, 30, 1, false, []⟩

theorem cache_transparent_logAndCommit : ∃ s s' : State Bool,
    Runs (init (fun _ => 0) 1000 oneOutstanding) logAndCommit s ∧
    step s (false, .test) = some s' ∧ Returns s s' false 1 5 0 ∧ (s'.buf 0).lock = some false ∧
    (s'.buf 0).data = s'.stored 5 ∧ s'.stored 5 = 7 := by
  have hexec : (logAndCommit.foldlM (guarded step anyEvent)
      (init (fun _ => 0) 1000 oneOutstanding)).map
        (fun s => (s.loc false, (step s (false, .test)).map
          fun s' => (s'.loc false, s'.stored 5))) =
      some (.busy 0 (some (1, 5)) .test, some (.run, 7)) := by
    decide +kernel
  obtain ⟨s, hs, heq⟩ := Option.map_eq_some_iff.mp hexec
  obtain ⟨hloc, hstep⟩ := Prod.mk.inj heq
  obtain ⟨s', hs', heq'⟩ := Option.map_eq_some_iff.mp hstep
  obtain ⟨hloc', hstored⟩ := Prod.mk.inj heq'
  have hrun := Run.of_foldlM hs
  have hret : Returns s s' false 1 5 0 := ⟨⟨.test, hloc⟩, hloc'⟩
  have htrans := (cache_transparent (fun _ => 0) 1000 oneOutstanding hrun).2.1 _ s' _ _ _ _ hs' hret
  exact ⟨s, s', hrun, hs', hret, htrans.2.1, htrans.2.2.2, hstored⟩

/-- **The cache as the log takes it.** In every state that a run from `binit` reaches, the buffers
and the disk together have what is stored in each block, once changes of buffers have been stored;
and when no buffer is locked, the clean ones have the contents of the disk. -/
theorem cache_refines_store (disk : Word → Block) (disksize : ℕ) (log : Logging.Log)
    {es : List (P × Act)} (hrun : Runs (init disk disksize log) es s) :
    ((∀ i, s.unsaved i = false) → ∀ b : Word, s.store.view b.toNat = s.stored b) ∧
      ((∀ i, (s.buf i).lock = none) → s.store.Clean) :=
  have h : Inv s := (init_inv disk disksize log).run hrun
  ⟨h.store_view, h.store_clean⟩

theorem cache_refines_store_logAndCommit : ∃ s : State Bool,
    Runs (init (fun _ => 0) 1000 oneOutstanding) logAndCommit s ∧ s.store.view 5 = s.stored 5 := by
  have hexec : (logAndCommit.foldlM (guarded step anyEvent)
      (init (fun _ => 0) 1000 oneOutstanding)).any
        (fun s => (List.finRange nBuf).all fun i => s.unsaved i = false) = true := by
    decide +kernel
  obtain ⟨s, hs, hall⟩ := (Option.any_eq_true _ _).mp hexec
  have hrun := Run.of_foldlM hs
  exact ⟨s, hrun, (cache_refines_store _ _ _ hrun).1 (fun i => by
    simpa using List.all_eq_true.mp hall i (List.mem_finRange i)) 5⟩

end Dave.Bcache
