import Dave.User.Malloc.Chain
import Mathlib.Data.Nat.Find

/-!
# The allocator

`malloc` goes round the free list once, from `freep` on, and takes the first block that is large
enough. If there is none it asks `sbrk` for more, which is then enough. So both functions end, and
keep the invariant. A program that calls them, frees each block once, and writes only to the bytes
it asked for, keeps the heap sound.
-/

namespace Dave.Malloc

open Nat Option List Blocks Cyclic

variable {W : Type} {sbrk : ℕ → W → Option (ℕ × W)} {base n x : ℕ} {h : Heap W}
  {c live regions : List Chunk}

/-! ### Once round the list -/

/-- A block that is too small is passed over. -/
theorem mallocLoop_step {p q : ℕ} (hsize : sizeAt h.ram p < n) (hp : p ≠ h.freep) (fuel : ℕ) :
    mallocLoop sbrk n (fuel + 1) q p h = mallocLoop sbrk n fuel p (ptrAt h.ram p) h := by
  rw [mallocLoop, if_neg (by omega), if_neg hp]

/-- The loop passes over any number of blocks that are too small. -/
theorem mallocLoop_walk (j : ℕ) (hj : ∀ i < j, sizeAt h.ram ((ptrAt h.ram)^[i + 1] h.freep) < n ∧
      (ptrAt h.ram)^[i + 1] h.freep ≠ h.freep) (fuel : ℕ) :
    mallocLoop sbrk n (fuel + j) h.freep (ptrAt h.ram h.freep) h =
      mallocLoop sbrk n fuel ((ptrAt h.ram)^[j] h.freep) ((ptrAt h.ram)^[j + 1] h.freep) h := by
  induction j generalizing fuel with
  | zero => rfl
  | succ j ih =>
    have hstep := hj j (lt_succ_self j)
    rw [show fuel + (j + 1) = fuel + 1 + j by omega, ih (fun i hi => hj i (by omega)),
      mallocLoop_step hstep.1 hstep.2, ← Function.iterate_succ_apply' (ptrAt h.ram)]

theorem Heap.Ok.round (ok : h.Ok base c live regions) (n : ℕ) :
    ∃ k, (ptrAt h.ram)^[k] h.freep ∈ c.map Chunk.start ∧
      (∀ (sbrk : ℕ → W → Option (ℕ × W)) (fuel : ℕ),
        mallocLoop sbrk n (fuel + k) h.freep (ptrAt h.ram h.freep) h =
          mallocLoop sbrk n fuel ((ptrAt h.ram)^[k] h.freep) ((ptrAt h.ram)^[k + 1] h.freep) h) ∧
      (n ≤ sizeAt h.ram ((ptrAt h.ram)^[k + 1] h.freep) ∨
        (ptrAt h.ram)^[k + 1] h.freep = h.freep ∧ ∀ b ∈ c, sizeAt h.ram b.start < n) := by
  have hlinks := ok.rep.links
  have hfreep := ok.freep
  obtain ⟨l, hl⟩ := ok.layout.exists_starts
  rw [hl] at hlinks hfreep
  have hround : ∃ k, n ≤ sizeAt h.ram ((ptrAt h.ram)^[k + 1] h.freep) ∨
      (ptrAt h.ram)^[k + 1] h.freep = h.freep := by
    obtain ⟨k, hk⟩ := hlinks.exists_iterate (hlinks.iterate_mem hfreep 1) hfreep
    exact ⟨k, .inr hk⟩
  classical
  have hbefore : ∀ i < Nat.find hround, sizeAt h.ram ((ptrAt h.ram)^[i + 1] h.freep) < n ∧
      (ptrAt h.ram)^[i + 1] h.freep ≠ h.freep := by
    intro i hi
    have := Nat.find_min hround hi
    rw [not_or] at this
    exact ⟨by omega, this.2⟩
  refine ⟨Nat.find hround, hl ▸ hlinks.iterate_mem hfreep _,
    fun sbrk fuel => mallocLoop_walk _ hbefore fuel, ?_⟩
  by_cases hfound : n ≤ sizeAt h.ram ((ptrAt h.ram)^[Nat.find hround + 1] h.freep)
  · exact .inl hfound
  · have hback := (Nat.find_spec hround).resolve_left hfound
    refine .inr ⟨hback, fun b hb => ?_⟩
    have hmem : b.start ∈ base :: l := hl ▸ mem_map_of_mem hb
    obtain ⟨j, hpos, hle, hj⟩ := hlinks.exists_round hfreep (succ_pos _) hback hmem
    obtain ⟨i, rfl⟩ : ∃ i, j = i + 1 := ⟨j - 1, by omega⟩
    rw [← hj]
    rcases Nat.lt_or_ge i (Nat.find hround) with hlt | hge
    · exact (hbefore i hlt).1
    · obtain rfl : i = Nat.find hround := by omega
      omega

/-! ### A block that is large enough -/

theorem Heap.Ok.take (ok : h.Ok base c live regions) (hx : x ∈ c.map Chunk.start) (hn : 0 < n)
    (hsize : n ≤ sizeAt h.ram (ptrAt h.ram x)) :
    ∃ d c' h', Malloc.take n x (ptrAt h.ram x) h = (d.start + 8, h') ∧ d.len = 8 * n ∧
      h'.Ok base c' (d :: live) regions ∧ h'.world = h.world := by
  obtain ⟨q, hq, rfl⟩ := mem_map.mp hx
  obtain ⟨lo, hi, rfl⟩ := append_of_mem hq
  obtain ⟨-, hmid⟩ := rep_append.mp ok.rep
  obtain ⟨hptr, -, hrest⟩ := rep_cons.mp hmid
  rw [hptr] at hsize ⊢
  cases hi with
  | nil =>
    have hzero := ok.rep.size ⟨base, 0⟩ (mem_of_mem_head? ok.layout.head)
    simp only [first_nil] at hsize
    simp only at hzero
    omega
  | cons p hi =>
    rw [first_cons] at hsize ⊢
    have hp := ok.layout.proper_of_gapped
    have hpsize := (rep_cons.mp hrest).2.1
    obtain heq | hlt := hsize.eq_or_lt
    · obtain ⟨h', htake, ok', hworld⟩ := ok.takeWhole heq.symm
      exact ⟨p, _, h', htake, by rw [← hpsize, heq], ok', hworld⟩
    · rw [append_cons] at ok
      obtain ⟨h', htake, ok', hworld⟩ := ok.takeEnd hp hn hlt (by simp : q.start ∈ _)
      exact ⟨_, _, h', htake, rfl, ok', hworld⟩

/-! ### More memory -/

/-- The number of bytes that `morecore` asks for. -/
def ask (nu : ℕ) : ℕ := 8 * max nu 4096

/-- A call of `sbrk` returns a region behind the others, or fails. -/
def Answer (base : ℕ) (regions : List Chunk) (k r : ℕ) : Prop :=
  r = 2 ^ 32 - 1 ∨ (base + 8 ≤ r ∧ r + k < 2 ^ 32 ∧ ∀ b ∈ regions, b.stop ≤ r)

/-- What `sbrk` was asked for: nothing, or once, and it failed or returned a region. -/
def Grown (sbrk : ℕ → W → Option (ℕ × W)) (k : ℕ) (w : W) (regions : List Chunk) (w' : W)
    (regions' : List Chunk) : Prop :=
  (w' = w ∧ regions' = regions) ∨ ∃ r, sbrk k w = some (r, w') ∧
    (r = 2 ^ 32 - 1 ∧ regions' = regions ∨ r ≠ 2 ^ 32 - 1 ∧ regions' = ⟨r, k⟩ :: regions)

theorem morecore_arg {nu : ℕ} (hnu : 8 * nu < 2 ^ 31) :
    (if nu < 4096 then 4096 else nu) * 8 % 2 ^ 32 = ask nu := by
  rw [ask]
  split_ifs <;> omega

variable {w : W}

theorem morecore_of_failed {nu : ℕ} (hnu : 8 * nu < 2 ^ 31)
    (hsbrk : sbrk (ask nu) h.world = some (2 ^ 32 - 1, w)) (fuel : ℕ) :
    morecore sbrk fuel nu h = some (0, { h with world := w }) := by
  simp only [morecore, morecore_arg hnu, hsbrk]
  rfl

theorem Heap.Ok.morecore (ok : h.Ok base c live regions) {nu r : ℕ} (hnu : 8 * nu < 2 ^ 31)
    (hsbrk : sbrk (ask nu) h.world = some (r, w)) (hlo : base + 8 ≤ r) (hhi : r + ask nu < 2 ^ 32)
    (hregions : ∀ b ∈ regions, b.stop ≤ r) :
    ∃ k h' c', (∀ fuel, Malloc.morecore sbrk (fuel + k) nu h = some (h'.freep, h')) ∧
      h'.Ok base c' live (⟨r, ask nu⟩ :: regions) ∧ h'.world = w ∧ ∃ d ∈ c', 8 * nu ≤ d.len := by
  have hask : ask nu = 8 * (if nu < 4096 then 4096 else nu) := by
    rw [ask]
    split_ifs <;> omega
  generalize hnu' : (if nu < 4096 then 4096 else nu) = nu' at hask
  have hle : 8 * nu ≤ ask nu ∧ 8 ≤ ask nu := by
    rw [ask]
    omega
  have hlayout := ok.layout.extend (b := ⟨r, ask nu⟩) ⟨hlo, hle.2⟩ hhi hregions
  have ok₁ : Heap.Ok base ⟨setSize h.ram r nu', h.freep, w⟩ c (⟨r, ask nu⟩ :: live)
      (⟨r, ask nu⟩ :: regions) := by
    refine ⟨hlayout, ok.rep.congr fun a ha x hx => setSize_of_notIn ?_, ok.freep, fun b hb => ?_,
      ok.pos, ok.lt⟩
    · have : a.start + 8 ≤ r ∨ r + 8 ≤ a.start := hlayout.header_apart ha mem_cons_self
      simp only [InHeader] at hx ⊢
      omega
    · obtain rfl | hb := mem_cons.mp hb
      · change 8 * sizeAt (setSize h.ram r nu') r = ask nu
        rw [sizeAt_setSize (by omega), hask]
      · rw [← ok.size b hb, sizeAt_congr fun x hx => setSize_of_notIn ?_]
        have : b.start + 8 ≤ r ∨ r + 8 ≤ b.start := hlayout.header_apart_live hb
        simp only [InHeader] at hx ⊢
        omega
  obtain ⟨k, h', c', hfree, ok', hworld, d, hd, hlen⟩ := ok₁.free
  refine ⟨k, h', c', fun fuel => ?_, ok', hworld, d, hd, hle.1.trans hlen⟩
  have hplus : plus r 1 = r + 8 := by
    rw [plus]
    omega
  have hr : r ≠ 2 ^ 32 - 1 := by omega
  have harg := morecore_arg hnu
  rw [hnu'] at harg
  simp only [Malloc.morecore, hnu', harg, hsbrk, bind_eq_bind, bind_some, if_neg hr,
    hplus, hfree fuel]
  rfl

/-! ### `malloc` -/

theorem Heap.Ok.freep_ne_zero (ok : h.Ok base c live regions) : h.freep ≠ 0 := by
  obtain ⟨b, hb, heq⟩ := mem_map.mp ok.freep
  have := ok.layout.base_le hb
  have := ok.pos
  omega

/-- The loop ends, after at most one call of `sbrk`. The heap is in order afterwards, and what is
returned is a new block of `n` units, or null. -/
theorem Heap.Ok.mallocLoop (ok : h.Ok base c live regions) (hn : 0 < n) (hmax : 8 * n < 2 ^ 31)
    {r : ℕ} (hsbrk : sbrk (ask n) h.world = some (r, w)) (hr : Answer base regions (ask n) r) :
    ∃ k p h' c' live' regions',
      (∀ fuel, Malloc.mallocLoop sbrk n (fuel + k) h.freep (ptrAt h.ram h.freep) h = some (p, h')) ∧
      h'.Ok base c' live' regions' ∧ Grown sbrk (ask n) h.world regions h'.world regions' ∧
      (p = 0 ∧ live' = live ∨ ∃ d : Chunk, p = d.start + 8 ∧ d.len = 8 * n ∧
        live' = d :: live) := by
  obtain ⟨k, hmem, hwalk, hfound | ⟨hback, hsmall⟩⟩ := ok.round n
  · rw [Function.iterate_succ_apply'] at hfound
    obtain ⟨d, c', h', htake, hlen, ok', hworld⟩ := ok.take hmem hn hfound
    refine ⟨1 + k, d.start + 8, h', c', d :: live, regions, fun fuel => ?_, ok', .inl ⟨hworld, rfl⟩,
      .inr ⟨d, rfl, hlen, rfl⟩⟩
    rw [← add_assoc, hwalk, Malloc.mallocLoop, Function.iterate_succ_apply', if_pos hfound, htake]
  have hfreep : ¬ n ≤ sizeAt h.ram h.freep := by
    obtain ⟨b, hb, heq⟩ := mem_map.mp ok.freep
    have := hsmall b hb
    rw [heq] at this
    omega
  by_cases hfail : r = 2 ^ 32 - 1
  · subst hfail
    refine ⟨1 + k, 0, { h with world := w }, c, live, regions, fun fuel => ?_,
      ⟨ok.layout, ok.rep, ok.freep, ok.size, ok.pos, ok.lt⟩, .inr ⟨_, hsbrk, .inl ⟨rfl, rfl⟩⟩,
      .inl ⟨rfl, rfl⟩⟩
    rw [← add_assoc, hwalk, hback, Malloc.mallocLoop, if_neg hfreep, if_pos rfl,
      morecore_of_failed hmax hsbrk]
    rfl
  · obtain ⟨hlo, hhi, hregions⟩ := hr.resolve_left hfail
    obtain ⟨j, h₁, c₁, hmore, ok₁, hworld₁, d₁, hd₁, hlen₁⟩ := ok.morecore hmax hsbrk hlo hhi
      hregions
    obtain ⟨i, hmem₁, hwalk₁, hfound₁⟩ := ok₁.round n
    have hfound : n ≤ sizeAt h₁.ram ((ptrAt h₁.ram)^[i + 1] h₁.freep) := by
      refine hfound₁.resolve_right fun hsmall₁ => ?_
      have := hsmall₁.2 d₁ hd₁
      have := ok₁.rep.size d₁ hd₁
      omega
    rw [Function.iterate_succ_apply'] at hfound
    obtain ⟨d, c', h', htake, hlen, ok', hworld⟩ := ok₁.take hmem₁ hn hfound
    refine ⟨i + 1 + j + 1 + k, d.start + 8, h', c', d :: live, _, fun fuel => ?_, ok',
      .inr ⟨r, ?_, .inr ⟨hfail, rfl⟩⟩, .inr ⟨d, rfl, hlen, rfl⟩⟩
    · rw [show fuel + (i + 1 + j + 1 + k) = fuel + (i + 1) + j + 1 + k by omega, hwalk, hback,
        Malloc.mallocLoop, if_neg hfreep, if_pos rfl, hmore]
      change (if h₁.freep = 0 then some (0, h₁) else Malloc.mallocLoop sbrk n (fuel + (i + 1) + j)
        h₁.freep (ptrAt h₁.ram h₁.freep) h₁) = _
      rw [if_neg ok₁.freep_ne_zero, show fuel + (i + 1) + j = fuel + j + 1 + i by omega, hwalk₁,
        Malloc.mallocLoop, Function.iterate_succ_apply', if_pos hfound, htake]
    · rw [hsbrk, hworld, hworld₁]

/-- The invariant holds, or the allocator has not been used. -/
def Heap.Ready (base : ℕ) (h : Heap W) (live regions : List Chunk) : Prop :=
  (h.freep = 0 ∧ live = [] ∧ regions = []) ∨ ∃ c, h.Ok base c live regions

theorem Heap.Ready.init (ready : h.Ready base live regions) (hpos : 0 < base)
    (hlt : base < 2 ^ 32) :
    (∃ c, (init base h).Ok base c live regions) ∧ (Malloc.init base h).world = h.world := by
  obtain ⟨hfreep, rfl, rfl⟩ | ⟨c, ok⟩ := ready
  · rw [Malloc.init, if_pos hfreep]
    refine ⟨⟨[⟨base, 0⟩], ⟨⟨rfl, pairwise_singleton _ _, fun b hb => .inl ?_, fun b hb => ?_,
      fun a _ b hb => ?_, .nil, fun x => ?_, fun r hr => ?_⟩, ?_, by simp, fun b hb => ?_, hpos,
      hlt⟩⟩, rfl⟩
    · exact mem_singleton.mp hb
    · exact absurd hb not_mem_nil
    · exact absurd hb not_mem_nil
    · refine ⟨fun hx => absurd hx covers_nil, fun hx => ?_⟩
      obtain ⟨b, hb, hle, hlt⟩ := hx.resolve_right covers_nil
      rw [mem_singleton.mp hb] at hle hlt
      exact absurd hlt (Nat.not_lt_of_le hle)
    · exact absurd hr not_mem_nil
    · refine rep_cons.mpr ⟨?_, ?_, ⟨trivial, fun b hb => absurd hb not_mem_nil⟩⟩
      · change ptrAt (setSize (setPtr h.ram base base) base 0) base = base
        rw [ptrAt_setSize, ptrAt_setPtr hlt]
      · change 8 * sizeAt (setSize (setPtr h.ram base base) base 0) base = 0
        rw [sizeAt_setSize (by decide)]
    · exact absurd hb not_mem_nil
  · rw [Malloc.init, if_neg ok.freep_ne_zero]
    exact ⟨⟨c, ok⟩, rfl⟩

/-- The size of a request, with its header and rounded up to headers, is below `2 ^ 31`. -/
def Small (nbytes : ℕ) : Prop := 8 * ((nbytes + 7) / 8 + 1) < 2 ^ 31

instance : DecidablePred Small := fun nbytes =>
  inferInstanceAs (Decidable (8 * ((nbytes + 7) / 8 + 1) < 2 ^ 31))

variable {nbytes : ℕ}

theorem Small.units_eq (h : Small nbytes) : units nbytes = (nbytes + 7) / 8 + 1 := by
  rw [Small] at h
  rw [units, mod_eq_of_lt (by omega)]

theorem Small.le_units (h : Small nbytes) : nbytes + 8 ≤ 8 * units nbytes := by
  rw [h.units_eq]
  omega

theorem ask_lt (h : 8 * n < 2 ^ 31) : 0 < ask n ∧ ask n < 2 ^ 31 := by
  rw [ask]
  omega

/-- `malloc` ends and keeps the invariant. It returns 0, or a pointer behind the header of a new
block. -/
theorem malloc_spec (ready : h.Ready base live regions) (hpos : 0 < base) (hlt : base < 2 ^ 32)
    (hsmall : Small nbytes) {r : ℕ} (hsbrk : sbrk (ask (units nbytes)) h.world = some (r, w))
    (hr : Answer base regions (ask (units nbytes)) r) :
    ∃ k p h' c' live' regions', (∀ fuel, malloc sbrk base (fuel + k) nbytes h = some (p, h')) ∧
      h'.Ok base c' live' regions' ∧
      Grown sbrk (ask (units nbytes)) h.world regions h'.world regions' ∧
      (p = 0 ∧ live' = live ∨ p ≠ 0 ∧ 8 ≤ p ∧ live' = ⟨p - 8, 8 * units nbytes⟩ :: live) := by
  obtain ⟨⟨c, ok⟩, hworld⟩ := ready.init hpos hlt
  have hmax : 8 * units nbytes < 2 ^ 31 := by
    rw [hsmall.units_eq]
    exact hsmall
  have hunits : 0 < units nbytes := succ_pos _
  rw [← hworld] at hsbrk
  obtain ⟨k, p, h', c', live', regions', hloop, ok', hgrown, hres⟩ :=
    ok.mallocLoop hunits hmax hsbrk hr
  refine ⟨k, p, h', c', live', regions', hloop, ok', hworld ▸ hgrown, hres.imp_right ?_⟩
  rintro ⟨d, rfl, hlen, rfl⟩
  refine ⟨by omega, by omega, ?_⟩
  rw [Nat.add_sub_cancel, ← hlen]

/-! ### More rounds than needed -/

theorem search_mono {m : Ram} {bp fuel p q : ℕ} (h : search m bp fuel p = some q) (j : ℕ) :
    search m bp (fuel + j) p = some q := by
  induction fuel generalizing p with
  | zero => cases h
  | succ fuel ih =>
    rw [add_right_comm, search]
    rw [search] at h
    split_ifs at h ⊢
    · exact h
    · exact h
    · exact ih h

theorem free_mono {fuel p : ℕ} {h' : Heap W} (hcall : free fuel p h = some h') (j : ℕ) :
    free (fuel + j) p h = some h' := by
  simp only [free, bind_eq_bind, bind_eq_some_iff] at hcall ⊢
  obtain ⟨q, hq, hrest⟩ := hcall
  exact ⟨q, search_mono hq j, hrest⟩

variable {r : ℕ × Heap W}

theorem morecore_mono {fuel nu : ℕ} (hcall : morecore sbrk fuel nu h = some r) (j : ℕ) :
    morecore sbrk (fuel + j) nu h = some r := by
  simp only [morecore, bind_eq_bind, bind_eq_some_iff] at hcall ⊢
  obtain ⟨a, ha, hrest⟩ := hcall
  refine ⟨a, ha, ?_⟩
  by_cases hfail : a.1 = 2 ^ 32 - 1
  · rw [if_pos hfail] at hrest ⊢
    exact hrest
  · rw [if_neg hfail] at hrest ⊢
    obtain ⟨h', hfree, hrest⟩ := bind_eq_some_iff.mp hrest
    exact bind_eq_some_iff.mpr ⟨h', free_mono hfree j, hrest⟩

/-- More fuel does not change the result. -/
theorem mallocLoop_mono {fuel p q : ℕ} (hcall : mallocLoop sbrk n fuel q p h = some r) (j : ℕ) :
    mallocLoop sbrk n (fuel + j) q p h = some r := by
  induction fuel generalizing p q h with
  | zero => cases hcall
  | succ fuel ih =>
    rw [add_right_comm, mallocLoop]
    rw [mallocLoop] at hcall
    split_ifs at hcall ⊢
    · exact hcall
    · obtain ⟨⟨p', h'⟩, hmore, hrest⟩ := bind_eq_some_iff.mp hcall
      refine bind_eq_some_iff.mpr ⟨(p', h'), morecore_mono hmore j, ?_⟩
      simp only at hrest ⊢
      split_ifs at hrest ⊢
      · exact hrest
      · exact ih hrest
    · exact ih hcall

theorem eq_of_fuel {α : Type} {f : ℕ → Option α} (hmono : ∀ fuel a, f fuel = some a →
      ∀ j, f (fuel + j) = some a) {k fuel : ℕ} {a b : α} (ha : ∀ i, f (i + k) = some a)
    (hb : f fuel = some b) : b = a := by
  have hboth := hmono fuel b hb k
  rw [ha] at hboth
  exact (some.inj hboth).symm

/-! ### A program that uses the allocator -/

/-- `sbrk` returns a fresh region behind all earlier ones, or fails. -/
structure Sbrk (base : ℕ) (sbrk : ℕ → W → Option (ℕ × W)) (regions : W → List Chunk) : Prop where
  spec (k : ℕ) (w : W) (hpos : 0 < k) (hk : k < 2 ^ 31) : ∃ r w', sbrk k w = some (r, w') ∧
    (r = 2 ^ 32 - 1 ∧ regions w' = regions w ∨
      (base + 8 ≤ r ∧ r + k < 2 ^ 32 ∧ ∀ b ∈ regions w, b.stop ≤ r) ∧
        regions w' = ⟨r, k⟩ :: regions w)

/-- A program: the heap, and the pointers that it was given and has not freed, with the numbers of
bytes that it asked for. -/
structure State (W : Type) where
  heap : Heap W
  live : List (ℕ × ℕ)

/-- The block of a pointer. -/
def blockOf (r : ℕ × ℕ) : Chunk := ⟨r.1 - 8, 8 * units r.2⟩

/-- The states of a program that uses the allocator. Between the calls it writes to the bytes that
it asked for. -/
inductive Reachable (base : ℕ) (sbrk : ℕ → W → Option (ℕ × W)) (w₀ : W) : State W → Prop where
  | start (m : Ram) : Reachable base sbrk w₀ ⟨⟨m, 0, w₀⟩, []⟩
  | malloc {s : State W} {fuel n p : ℕ} {h : Heap W} (hs : Reachable base sbrk w₀ s) (hn : Small n)
      (hcall : malloc sbrk base fuel n s.heap = some (p, h)) :
      Reachable base sbrk w₀ ⟨h, if p = 0 then s.live else (p, n) :: s.live⟩
  | free {s : State W} {fuel p n : ℕ} {h : Heap W} (hs : Reachable base sbrk w₀ s)
      (hp : (p, n) ∈ s.live) (hcall : free fuel p s.heap = some h) :
      Reachable base sbrk w₀ ⟨h, s.live.erase (p, n)⟩
  | write {s : State W} {m : Ram} (hs : Reachable base sbrk w₀ s)
      (hm : ∀ x, (∀ r ∈ s.live, ¬ (r.1 ≤ x ∧ x < r.1 + r.2)) → m x = s.heap.ram x) :
      Reachable base sbrk w₀ ⟨{ s.heap with ram := m }, s.live⟩

structure State.Ok (base : ℕ) (regions : W → List Chunk) (s : State W) : Prop where
  ready : s.heap.Ready base (s.live.map blockOf) (regions s.heap.world)
  room (r : ℕ × ℕ) (hr : r ∈ s.live) : 8 ≤ r.1 ∧ r.2 + 8 ≤ (blockOf r).len

section Program

variable {regions : W → List Chunk} {w₀ : W} {s : State W}

theorem State.Ok.malloc (ok : s.Ok base regions) (hs : Sbrk base sbrk regions) (hpos : 0 < base)
    (hlt : base < 2 ^ 32) (hn : Small n) : ∃ k p h,
      (∀ fuel, Malloc.malloc sbrk base (fuel + k) n s.heap = some (p, h)) ∧
        State.Ok base regions ⟨h, if p = 0 then s.live else (p, n) :: s.live⟩ := by
  have hmax : 8 * units n < 2 ^ 31 := by
    rw [hn.units_eq]
    exact hn
  obtain ⟨r, w, hsbrk, hanswer⟩ := hs.spec _ s.heap.world (ask_lt hmax).1 (ask_lt hmax).2
  obtain ⟨k, p, h', c', live', regions', hcall, ok', hgrown, hres⟩ :=
    malloc_spec ok.ready hpos hlt hn hsbrk (hanswer.imp And.left And.left)
  have hregions : regions' = regions h'.world := by
    obtain ⟨hw, rfl⟩ | ⟨r', hsbrk', hres'⟩ := hgrown
    · rw [hw]
    · rw [hsbrk] at hsbrk'
      obtain ⟨rfl, rfl⟩ := Prod.mk.inj (some.inj hsbrk')
      have hask := (ask_lt hmax).1
      obtain ⟨rfl, hfail⟩ | ⟨⟨-, hr, -⟩, hfresh⟩ := hanswer
      · rw [hfail]
        exact (hres'.resolve_right fun h => h.1 rfl).2
      · rw [hfresh]
        exact (hres'.resolve_left fun h => by omega).2
  subst hregions
  refine ⟨k, p, h', hcall, ?_⟩
  obtain ⟨rfl, rfl⟩ | ⟨hp, hle, rfl⟩ := hres
  · exact ⟨.inr ⟨c', ok'⟩, ok.room⟩
  · rw [if_neg hp]
    refine ⟨.inr ⟨c', ok'⟩, fun r hr => ?_⟩
    obtain rfl | hr := mem_cons.mp hr
    · exact ⟨hle, hn.le_units⟩
    · exact ok.room r hr

theorem State.Ok.free (ok : s.Ok base regions) {p : ℕ} (hp : (p, n) ∈ s.live) : ∃ k h,
    (∀ fuel, Malloc.free (fuel + k) p s.heap = some h) ∧
      State.Ok base regions ⟨h, s.live.erase (p, n)⟩ := by
  obtain ⟨-, hnil, -⟩ | ⟨c, okc⟩ := ok.ready
  · rw [map_eq_nil_iff.mp hnil] at hp
    exact absurd hp not_mem_nil
  have hperm := (perm_cons_erase hp).map blockOf
  have okc' : s.heap.Ok base c (blockOf (p, n) :: (s.live.erase (p, n)).map blockOf)
      (regions s.heap.world) :=
    ⟨okc.layout.perm hperm, okc.rep, okc.freep, fun b hb => okc.size b (hperm.mem_iff.mpr hb),
      okc.pos, okc.lt⟩
  obtain ⟨k, h', c', hcall, ok', hworld, -⟩ := okc'.free
  have hstart : (blockOf (p, n)).start + 8 = p := Nat.sub_add_cancel (ok.room _ hp).1
  rw [hstart] at hcall
  refine ⟨k, h', hcall, .inr ⟨c', ?_⟩, fun r hr => ok.room r (mem_of_mem_erase hr)⟩
  rw [hworld]
  exact ok'

theorem State.Ok.write (ok : s.Ok base regions) {m : Ram}
    (hm : ∀ x, (∀ r ∈ s.live, ¬ (r.1 ≤ x ∧ x < r.1 + r.2)) → m x = s.heap.ram x) :
    State.Ok base regions ⟨{ s.heap with ram := m }, s.live⟩ := by
  refine ⟨ok.ready.imp id fun ⟨c, okc⟩ => ⟨c, ?_⟩, ok.room⟩
  have hkeep : ∀ b, b ∈ c ∨ b ∈ s.live.map blockOf → ∀ x, InHeader b.start x →
      m x = s.heap.ram x := by
    intro b hb x hx
    refine hm x fun r hr hin => ?_
    have hroom := ok.room r hr
    refine okc.layout.header_notIn hb (mem_map_of_mem hr : blockOf r ∈ _) hx ?_
    simp only [blockOf, Chunk.stop] at hroom ⊢
    omega
  exact ⟨okc.layout, okc.rep.congr fun b hb => hkeep b (.inl hb), okc.freep,
    fun b hb => by rw [← okc.size b hb, sizeAt_congr (hkeep b (.inr hb))], okc.pos, okc.lt⟩

theorem Reachable.ok (h : Reachable base sbrk w₀ s) (hs : Sbrk base sbrk regions) (hpos : 0 < base)
    (hlt : base < 2 ^ 32) (hw : regions w₀ = []) : s.Ok base regions := by
  induction h with
  | start m => exact ⟨.inl ⟨rfl, rfl, hw⟩, fun r hr => absurd hr not_mem_nil⟩
  | @malloc s fuel n p h _ hn hcall ih =>
    obtain ⟨k, p', h', hcall', ok'⟩ := ih.malloc hs hpos hlt hn
    have heq := eq_of_fuel (f := fun fuel => Malloc.malloc sbrk base fuel n s.heap)
      (fun _ _ h j => mallocLoop_mono h j) hcall' hcall
    obtain ⟨rfl, rfl⟩ := Prod.mk.inj heq
    exact ok'
  | @free s fuel p n h _ hp hcall ih =>
    obtain ⟨k, h', hcall', ok'⟩ := ih.free hp
    have heq := eq_of_fuel (f := fun fuel => Malloc.free fuel p s.heap)
      (fun _ _ h j => free_mono h j) hcall' hcall
    rw [heq]
    exact ok'
  | write _ hm ih => exact ih.write hm

/-- The heap is sound in all states: `malloc` and `free` end, and the invariant holds. -/
theorem heap_sound (hs : Sbrk base sbrk regions) (hpos : 0 < base) (hlt : base < 2 ^ 32)
    (hw : regions w₀ = []) (h : Reachable base sbrk w₀ s) :
    (∀ n, Small n → ∃ fuel r, malloc sbrk base fuel n s.heap = some r) ∧
    (∀ p n, (p, n) ∈ s.live → ∃ fuel r, free fuel p s.heap = some r) ∧
    s.heap.Ready base (s.live.map blockOf) (regions s.heap.world) ∧
    ∀ r ∈ s.live, 8 ≤ r.1 ∧ r.2 + 8 ≤ (blockOf r).len := by
  have ok := h.ok hs hpos hlt hw
  refine ⟨fun n hn => ?_, fun p n hp => ?_, ok.ready, ok.room⟩
  · obtain ⟨k, p, h', hcall, -⟩ := ok.malloc hs hpos hlt hn
    exact ⟨0 + k, (p, h'), hcall 0⟩
  · obtain ⟨k, h', hcall, -⟩ := ok.free hp
    exact ⟨0 + k, h', hcall 0⟩

end Program

/-- The end of all regions, or the end of a program of two pages. -/
def topOf (w : List Chunk) : ℕ := w.foldr (fun b t => max b.stop t) 8192

/-- An `sbrk` that remembers the regions. -/
def grow (k : ℕ) (w : List Chunk) : Option (ℕ × List Chunk) :=
  if topOf w + k < 2 ^ 32 then some (topOf w, ⟨topOf w, k⟩ :: w) else some (2 ^ 32 - 1, w)

theorem le_topOf (w : List Chunk) : 8192 ≤ topOf w ∧ ∀ b ∈ w, b.stop ≤ topOf w := by
  induction w with
  | nil => exact ⟨Nat.le_refl _, fun b hb => absurd hb not_mem_nil⟩
  | cons a w ih =>
    have htop : topOf (a :: w) = max a.stop (topOf w) := rfl
    rw [htop]
    refine ⟨ih.1.trans (le_max_right _ _), fun b hb => ?_⟩
    obtain rfl | hb := mem_cons.mp hb
    · exact le_max_left _ _
    · exact (ih.2 b hb).trans (le_max_right _ _)

theorem grow_sbrk : Sbrk 4096 grow id where
  spec k w _ _ := by
    rw [grow]
    split_ifs with h
    · have htop := le_topOf w
      exact ⟨_, _, rfl, .inr ⟨⟨by omega, h, htop.2⟩, rfl⟩⟩
    · exact ⟨_, _, rfl, .inl ⟨rfl, rfl⟩⟩

/-- A program that has asked for ten bytes. -/
theorem heap_sound_ten : ∃ s : State (List Chunk), s.live = [(40944, 10)] ∧
    (∃ fuel h, free fuel 40944 s.heap = some h) ∧
    s.heap.Ready 4096 [⟨40936, 24⟩] s.heap.world := by
  have hrun : (malloc grow 4096 4 10 ⟨fun _ => 0, 0, []⟩).map Prod.fst = some 40944 := by
    decide +kernel
  obtain ⟨⟨p, h⟩, hcall, rfl⟩ := map_eq_some_iff.mp hrun
  have hreach := Reachable.malloc (.start fun _ => 0) (by decide) hcall
  have hsound := heap_sound grow_sbrk (by decide) (by decide) rfl hreach
  exact ⟨_, rfl, hsound.2.1 _ 10 (by simp), hsound.2.2.1⟩

end Dave.Malloc
