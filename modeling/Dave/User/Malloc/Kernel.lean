import Dave.Memory.Grow
import Dave.User.Malloc.Sound

/-!
# The allocator and the kernel

In the kernel `sbrk` is `sys_sbrk`, which calls `growproc`. The new memory begins at the size that
the process had, so that the regions are fresh. If the size that is computed for a request does not
wrap, `malloc` returns nothing or as many bytes as were asked for. But the size can wrap: a request
for almost `2 ^ 32` bytes is taken for one of none.

## Main results

* `malloc` never returns too little, from any state, if and only if the size of the request with its
  header is below `2 ^ 31` (`Small`).
* A heap and a request for which it does.
-/

namespace Dave.Malloc

open Blocks
open Memory (PageDir Mem Sound kernBase pages smallLayout onePage)

/-- What `sbrk` works on: the size and the pages of the process, and the memory of the kernel. -/
structure Process where
  sz : ℕ
  pgdir : PageDir
  mem : Mem

/-- `sys_sbrk`. The argument is a `uint` that is taken for an `int`. -/
def sysSbrk (L : Memory.Layout) (k : ℕ) (w : Process) : Option (ℕ × Process) :=
  match Memory.growproc L w.pgdir w.sz (BitVec.ofNat 32 k).toInt w.mem with
  | .error _ => none
  | .ok ((r, sz, pgdir), mem) =>
    if r < 0 then some (2 ^ 32 - 1, ⟨sz, pgdir, mem⟩) else some (w.sz, ⟨sz, pgdir, mem⟩)

variable {L : Memory.Layout} {w : Process} {base k nbytes : ℕ} {h : Heap Process}
  {live regions : List Chunk}

/-- The state of the process is sound, and everything the allocator uses is below its size. -/
structure Process.Ok (L : Memory.Layout) (base : ℕ) (regions : List Chunk) (w : Process) :
    Prop where
  sound : Sound L w.pgdir w.mem
  sz : w.sz < kernBase
  maps : w.pgdir.Maps (pages w.sz)
  base : base + 8 ≤ w.sz
  regions (r : Chunk) (hr : r ∈ regions) : r.stop ≤ w.sz

theorem Process.Ok.sbrk (ok : w.Ok L base regions) (hpos : 0 < k) (hk : k < 2 ^ 31) :
    ∃ r w', sysSbrk L k w = some (r, w') ∧ Answer base regions k r ∧
      (r = 2 ^ 32 - 1 ∧ w'.sz = w.sz ∨ r = w.sz ∧ w'.sz = w.sz + k) := by
  have hint : (BitVec.ofNat 32 k).toInt = k := by
    rw [BitVec.toInt_ofNat', Int.bmod_eq_of_le] <;> omega
  obtain ⟨⟨r, sz', d'⟩, m', hgrow, hres⟩ :=
    (Memory.wp_growproc_up (E := fun _ => False) (n := (BitVec.ofNat 32 k).toInt) ok.sound ok.sz
      ok.maps (by omega) (by omega)).exists_ok
  have hkern : kernBase = 2147483648 := rfl
  rw [sysSbrk, hgrow]
  obtain ⟨rfl, hsz, hlt, -⟩ | ⟨rfl, rfl, -⟩ := hres
  · simp only [hint] at hsz hlt
    refine ⟨w.sz, _, rfl, .inr ⟨ok.base, by omega, ok.regions⟩, .inr ⟨rfl, ?_⟩⟩
    change sz' = _
    omega
  · exact ⟨_, _, rfl, .inl rfl, .inl ⟨rfl, rfl⟩⟩

/-- A call of `malloc` ends. It returns 0, or a pointer to as many bytes as were asked for: they are
below the size of the process, and are not part of a block in use or of a header. -/
def Enough (L : Memory.Layout) (base nbytes : ℕ) (live : List Chunk) (h : Heap Process) : Prop :=
  ∃ k p h', (∀ fuel, malloc (sysSbrk L) base (fuel + k) nbytes h = some (p, h')) ∧
    (p = 0 ∨ p + nbytes ≤ h'.world.sz ∧ (∀ b ∈ live, Apart ⟨p, nbytes⟩ b) ∧
      ∃ c regions', h'.Ok base c (⟨p - 8, 8 * units nbytes⟩ :: live) regions' ∧
        ∀ b ∈ c, Apart ⟨p, nbytes⟩ ⟨b.start, 8⟩)

theorem enough_of_small (hw : h.world.Ok L base regions) (hpos : 0 < base)
    (ready : h.Ready base live regions) (hsmall : Small nbytes) : Enough L base nbytes live h := by
  have hmax : 8 * units nbytes < 2 ^ 31 := by
    rw [hsmall.units_eq]
    exact hsmall
  have hlt : base < 2 ^ 32 := by
    have := hw.base
    have := hw.sz
    have hkern : kernBase = 2147483648 := rfl
    omega
  obtain ⟨r, w, hsbrk, hanswer, hsz⟩ := hw.sbrk (ask_lt hmax).1 (ask_lt hmax).2
  obtain ⟨k, p, h', c', live', regions', hcall, ok', hgrown, hres⟩ :=
    malloc_spec ready hpos hlt hsmall hsbrk hanswer
  refine ⟨k, p, h', hcall, ?_⟩
  obtain ⟨rfl, -⟩ | ⟨-, hle, rfl⟩ := hres
  · exact .inl rfl
  have hregions : ∀ b ∈ regions', b.stop ≤ h'.world.sz := by
    obtain ⟨hsame, rfl⟩ | ⟨r', hsbrk', hgrown⟩ := hgrown
    · rw [hsame]
      exact hw.regions
    · rw [hsbrk] at hsbrk'
      obtain ⟨rfl, rfl⟩ := Prod.mk.inj (Option.some.inj hsbrk')
      obtain ⟨rfl, rfl⟩ | ⟨hne, rfl⟩ := hgrown
      · intro b hb
        have := hw.regions b hb
        omega
      · obtain ⟨rfl, hnew⟩ := hsz.resolve_left fun h => hne h.1
        intro b hb
        obtain rfl | hb := List.mem_cons.mp hb
        · exact hnew.symm.le
        · have := hw.regions b hb
          omega
  have hroom := hsmall.le_units
  obtain ⟨b₀, hb₀, hstop⟩ := ok'.layout.exists_region (.inr List.mem_cons_self)
    (ok'.layout.proper_live _ List.mem_cons_self)
  have hb₀sz := hregions b₀ hb₀
  rw [Chunk.stop] at hstop
  simp only at hstop
  refine .inr ⟨by omega, fun b hb => ?_, c', regions', ok', fun b hb => ?_⟩
  · have hapart := (List.pairwise_cons.mp ok'.layout.pairwise).1 b hb
    simp only [Apart, Chunk.stop] at hapart ⊢
    omega
  · have hapart := ok'.layout.apart b hb _ List.mem_cons_self
    have hproper := ok'.layout.proper_live _ List.mem_cons_self
    obtain rfl | hb' := ok'.layout.proper_free b hb
    · simp only [Proper] at hproper
      simp only [Apart, Chunk.stop]
      omega
    · have := hb'.2
      simp only [Apart, Chunk.stop] at hapart ⊢
      omega

/-! ### Requests that wrap -/

/-- A process of 2004 bytes, in one page. -/
def smallProcess : Process := ⟨2004, onePage, ⟨[], fun _ => false, 0, false, false, fun _ _ => 0⟩⟩

theorem smallProcess_ok (hregions : ∀ r ∈ regions, r.stop ≤ 2004) :
    smallProcess.Ok smallLayout 1024 regions :=
  ⟨Memory.onePage_sound, by decide, Memory.onePage_maps, by decide, hregions⟩

/-- A negative argument, or zero: the call succeeds, because `growproc` returns 0, although the
process does not grow. The size is not a multiple of 8, so that it does not become 0. -/
theorem sysSbrk_of_negative (hk : k = 0 ∨ 2 ^ 31 ≤ k) (hlt : k < 2 ^ 32) (hdvd : k % 8 = 0) :
    ∃ w, sysSbrk smallLayout k smallProcess = some (2004, w) ∧ w.sz ≤ 2004 := by
  obtain rfl | hk := hk
  · exact ⟨smallProcess, rfl, le_rfl⟩
  have hint : (BitVec.ofNat 32 k).toInt = k - 2 ^ 32 := by
    rw [BitVec.toInt_eq_toNat_cond, BitVec.toNat_ofNat]
    split_ifs <;> omega
  have hdown : Wp (fun _ => False) (Memory.growproc _ _ 2004 (BitVec.ofNat 32 k).toInt) _ _ :=
    Memory.wp_growproc_down Memory.onePage_sound (by decide) (by omega) rfl
  obtain ⟨⟨r, sz, d⟩, m, hgrow, hres, -⟩ := hdown.exists_ok
  rw [if_neg (by omega)] at hres
  obtain ⟨rfl, rfl⟩ : r = 0 ∧ sz = _ := hres
  rw [sysSbrk, smallProcess, hgrow]
  exact ⟨_, rfl, min_le_left _ _⟩

/-- A heap that has not been used. -/
def unused : Heap Process := ⟨fun _ => 0, 0, smallProcess⟩

/-- A block behind the size of the process is given to a list that has only the static header. -/
theorem free_behind {m : Ram} {n : ℕ} (w : Process) (hptr : ptrAt m 1024 = 1024)
    (hsize : sizeAt m 1024 = 0) (hn : n < 2 ^ 32) : ∃ m',
    (∀ fuel, free (fuel + 1) 2012 (⟨setSize m 2004 n, 1024, w⟩ : Heap Process) =
      some ⟨m', 1024, w⟩) ∧ ptrAt m' 1024 = 2004 ∧ sizeAt m' 2004 = n := by
  have hptr₁ : ptrAt (setSize m 2004 n) 1024 = 1024 :=
    (load_store_of_apart (by omega)).trans hptr
  have hsize₁ : sizeAt (setSize m 2004 n) 2004 = n := sizeAt_setSize hn
  have hsize₂ : sizeAt (setPtr (setSize m 2004 n) 2004 1024) 1024 = 0 :=
    (load_store_of_apart (by omega)).trans ((load_store_of_apart (by omega)).trans hsize)
  have hplus : plus 2004 n ≠ 1024 := by
    rw [plus]
    omega
  refine ⟨setPtr (setPtr (setSize m 2004 n) 2004 1024) 1024 2004, fun fuel => ?_,
    ptrAt_setPtr (by omega), ?_⟩
  · simp only [free, show (2012 + (2 ^ 32 - 8)) % 2 ^ 32 = 2004 from rfl,
      search_of_stops (.inr (by omega) : Stops (setSize m 2004 n) 2004 1024), hptr₁, chain, hsize₁,
      if_neg hplus, hsize₂, if_neg (show plus 1024 0 ≠ 2004 by decide), Option.bind_eq_bind,
      Option.bind_some]
    rfl
  · exact (load_store_of_apart (by omega)).trans ((sizeAt_setPtr _ _).trans hsize₁)

/-- The block that `morecore` adds to an unused heap is behind the size of the process. -/
theorem malloc_unused (hlo : 2 ^ 31 ≤ 8 * units nbytes) (hhi : 8 * units nbytes ≤ 2 ^ 32) :
    ∃ h', (∀ fuel, malloc (sysSbrk smallLayout) 1024 (fuel + 2) nbytes unused = some (2012, h')) ∧
      h'.world.sz ≤ 2004 := by
  simp only [malloc]
  generalize units nbytes = n at *
  obtain ⟨w, hsbrk, hsz⟩ := sysSbrk_of_negative (k := n * 8 % 2 ^ 32) (by omega) (by omega)
    (by omega)
  obtain ⟨m, hm⟩ : ∃ m, m = (init 1024 unused).ram := ⟨_, rfl⟩
  have hinit : init 1024 unused = ⟨m, 1024, smallProcess⟩ := by
    rw [hm]
    rfl
  have hptr : ptrAt m 1024 = 1024 := by
    rw [hm]
    decide +kernel
  have hsize : sizeAt m 1024 = 0 := by
    rw [hm]
    decide +kernel
  obtain ⟨m', hfree, hptr', hsize'⟩ := free_behind w hptr hsize (show n < 2 ^ 32 by omega)
  have hmore (fuel : ℕ) : morecore (sysSbrk smallLayout) (fuel + 1) n ⟨m, 1024, smallProcess⟩ =
      some (1024, ⟨m', 1024, w⟩) := by
    simp only [morecore, if_neg (show ¬ n < 4096 by omega), hsbrk, Option.bind_eq_bind,
      Option.bind_some, if_neg (show 2004 ≠ 2 ^ 32 - 1 by decide),
      show plus 2004 1 = 2012 from rfl, hfree]
    rfl
  refine ⟨⟨setPtr m' 1024 (ptrAt m' 2004), 1024, w⟩, fun fuel => ?_, hsz⟩
  rw [hinit, hptr, mallocLoop, if_neg (by rw [hsize]; omega), if_pos rfl, hmore]
  change mallocLoop _ n (fuel + 1) 1024 (ptrAt m' 1024) _ = _
  rw [hptr', mallocLoop, if_pos hsize'.ge, take, if_pos hsize']
  rfl

/-- A heap with one free block, of ten units. -/
def oneBlock : Heap Process where
  ram := setSize (setPtr (setSize (setPtr (fun _ => 0) 1024 1200) 1024 0) 1200 1024) 1200 10
  freep := 1024
  world := smallProcess

theorem oneBlock_ok : oneBlock.Ok 1024 [⟨1024, 0⟩, ⟨1200, 80⟩] [] [⟨1200, 80⟩] := by
  have hbase : ptrAt oneBlock.ram 1024 = 1200 ∧ sizeAt oneBlock.ram 1024 = 0 := by decide +kernel
  have hblock : ptrAt oneBlock.ram 1200 = 1024 ∧ sizeAt oneBlock.ram 1200 = 10 := by decide +kernel
  refine ⟨⟨rfl, ?_, fun b hb => ?_, fun b hb => ?_, fun a _ b hb => ?_, .nil, fun x => ?_,
    fun r hr => ?_⟩, ⟨⟨hbase.1, hblock.1, trivial⟩, fun b hb => ?_⟩, by decide, fun b hb => ?_,
    by decide, by decide⟩
  · exact List.pairwise_pair.mpr (by decide)
  · obtain rfl | hb := List.mem_cons.mp hb
    · exact .inl rfl
    · rw [List.mem_singleton.mp hb]
      exact .inr ⟨by decide, by decide⟩
  · exact absurd hb List.not_mem_nil
  · exact absurd hb List.not_mem_nil
  · have hnone : ¬ (1024 ≤ x ∧ x < (⟨1024, 0⟩ : Chunk).stop) := by
      simp only [Chunk.stop]
      omega
    rw [covers_cons (b := ⟨1024, 0⟩), or_iff_right hnone, or_iff_left covers_nil]
  · rw [List.mem_singleton.mp hr]
    decide
  · obtain rfl | hb := List.mem_cons.mp hb
    · rw [hbase.2]
    · rw [List.mem_singleton.mp hb, hblock.2]
  · exact absurd hb List.not_mem_nil

theorem oneBlock_process : oneBlock.world.Ok smallLayout 1024 [⟨1200, 80⟩] :=
  smallProcess_ok fun r hr => by
    rw [List.mem_singleton.mp hr]
    decide

theorem malloc_oneBlock (hunits : units nbytes = 1) : ∃ h',
    (∀ fuel, malloc (sysSbrk smallLayout) 1024 (fuel + 1) nbytes oneBlock = some (1280, h')) ∧
      h'.world.sz = 2004 := by
  refine ⟨(take 1 1024 1200 oneBlock).2, fun fuel => ?_, by decide +kernel⟩
  have hinit : init 1024 oneBlock = oneBlock := rfl
  have hptr : ptrAt oneBlock.ram oneBlock.freep = 1200 := by decide +kernel
  have hsize : 1 ≤ sizeAt oneBlock.ram 1200 := by decide +kernel
  have htake : (take 1 1024 1200 oneBlock).1 = 1280 := by decide +kernel
  simp only [malloc, hunits, hinit, hptr, mallocLoop, if_pos hsize]
  exact congrArg some (Prod.ext htake rfl)

theorem not_enough_of_call {j p : ℕ} {h' : Heap Process}
    (hcall : ∀ fuel, malloc (sysSbrk L) base (fuel + j) nbytes h = some (p, h')) (hp : p ≠ 0)
    (hsz : h'.world.sz < p + nbytes) : ¬ Enough L base nbytes live h := by
  rintro ⟨k, p₁, h₁, hcall₁, hres⟩
  have heq := (hcall k).symm.trans (Nat.add_comm k j ▸ hcall₁ j)
  obtain ⟨rfl, rfl⟩ := Prod.mk.inj (Option.some.inj heq)
  obtain rfl | ⟨hle, -⟩ := hres
  · exact hp rfl
  · omega

/-- `malloc` never returns too little, from whatever state, if and only if the size of the request
does not wrap. -/
theorem malloc_enough (hlt : nbytes < 2 ^ 32) :
    (∀ (L : Memory.Layout) (base : ℕ) (live regions : List Chunk) (h : Heap Process), 0 < base →
      h.world.Ok L base regions → h.Ready base live regions → Enough L base nbytes live h) ↔
      Small nbytes := by
  constructor
  · intro henough
    by_contra hlarge
    rw [Small] at hlarge
    by_cases hwrap : units nbytes = 1
    · obtain ⟨h', hcall, hsz⟩ := malloc_oneBlock hwrap
      rw [units] at hwrap
      exact not_enough_of_call hcall (by decide) (by omega)
        (henough _ _ [] _ _ (by decide) oneBlock_process (.inr ⟨_, oneBlock_ok⟩))
    · have hunits : nbytes + 7 < 2 ^ 32 ∧ units nbytes = (nbytes + 7) / 8 + 1 := by
        rw [units] at hwrap ⊢
        omega
      have hhi : 8 * units nbytes ≤ 2 ^ 32 := by omega
      obtain ⟨h', hcall, hsz⟩ := malloc_unused (by omega) hhi
      exact not_enough_of_call hcall (by decide) (by omega)
        (henough _ _ [] [] _ (by decide) (smallProcess_ok fun r hr => absurd hr List.not_mem_nil)
          (.inl ⟨rfl, rfl, rfl⟩))
  · intro hsmall L base live regions h hpos hw ready
    exact enough_of_small hw hpos ready hsmall

/-- A request for `2 ^ 32 - 1` bytes. The pointer that `malloc` returns is the end of the heap. -/
theorem malloc_too_little : oneBlock.world.Ok smallLayout 1024 [⟨1200, 80⟩] ∧
    oneBlock.Ready 1024 [] [⟨1200, 80⟩] ∧
    (malloc (sysSbrk smallLayout) 1024 1 (2 ^ 32 - 1) oneBlock).map (fun r =>
      (r.1, r.2.world.sz)) = some (1280, 2004) :=
  ⟨oneBlock_process, .inr ⟨_, oneBlock_ok⟩, by decide +kernel⟩

/-- A request for a hundred bytes. -/
theorem malloc_enough_hundred : Enough smallLayout 1024 100 [] oneBlock :=
  (malloc_enough (by decide)).mpr (by decide) _ _ _ _ _ (by decide) oneBlock_process
    (.inr ⟨_, oneBlock_ok⟩)

end Dave.Malloc
