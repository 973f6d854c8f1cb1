import Dave.Lib.Cyclic
import Dave.User.Malloc
import Dave.User.Malloc.Layout

/-!
# The free list in memory

The headers in memory link the free blocks. This file says what the steps of `free` and `malloc` do
to the list: how `free` finds the block in front of the one that is given back, how a block is
joined with the next, and what is left when a block is handed out.
-/

namespace Dave.Malloc

open List Blocks Cyclic

variable {base : ℕ} {m m' : Ram} {a b p q : Chunk}
  {c l l' lo hi live regions : List Chunk} {x z : ℕ}

/-! ### Headers in memory -/

theorem ptrAt_lt (m : Ram) (p : ℕ) : ptrAt m p < 2 ^ 32 := load_lt m p

theorem ptrAt_setPtr {p v : ℕ} (hv : v < 2 ^ 32) : ptrAt (setPtr m p v) p = v := load_store_self hv

theorem sizeAt_setSize {p v : ℕ} (hv : v < 2 ^ 32) : sizeAt (setSize m p v) p = v :=
  load_store_self hv

theorem sizeAt_setPtr (p v : ℕ) : sizeAt (setPtr m p v) p = sizeAt m p :=
  load_store_of_apart (.inl (Nat.le_refl _))

theorem ptrAt_setSize (p v : ℕ) : ptrAt (setSize m p v) p = ptrAt m p :=
  load_store_of_apart (.inr (Nat.le_refl _))

/-- A byte of a header. -/
def InHeader (p x : ℕ) : Prop := p ≤ x ∧ x < p + 8

theorem InHeader.notIn {p q : ℕ} (hx : InHeader p x) (h : p + 8 ≤ q ∨ q + 8 ≤ p) :
    ¬ InHeader q x := by
  simp only [InHeader] at hx ⊢
  omega

theorem setPtr_of_notIn {p v : ℕ} (h : ¬ InHeader p x) : setPtr m p v x = m x :=
  store_of_lt (by simp only [InHeader] at h; omega)

theorem setSize_of_notIn {p v : ℕ} (h : ¬ InHeader p x) : setSize m p v x = m x :=
  store_of_lt (by simp only [InHeader] at h; omega)

theorem ptrAt_congr {p : ℕ} (h : ∀ x, InHeader p x → m' x = m x) : ptrAt m' p = ptrAt m p :=
  load_congr fun x h₁ h₂ => h x ⟨h₁, by omega⟩

theorem sizeAt_congr {p : ℕ} (h : ∀ x, InHeader p x → m' x = m x) : sizeAt m' p = sizeAt m p :=
  load_congr fun x h₁ h₂ => h x ⟨by omega, by omega⟩

/-- The headers of blocks in memory: each has the size of its block and leads to the next, and the
last one to `z`. -/
structure Rep (m : Ram) (l : List Chunk) (z : ℕ) : Prop where
  links : Links (ptrAt m) (l.map Chunk.start) z
  size (b : Chunk) (hb : b ∈ l) : 8 * sizeAt m b.start = b.len

/-- The address of the first block. -/
def first (l : List Chunk) (z : ℕ) : ℕ := (l.map Chunk.start).headD z

@[simp] theorem first_nil (z : ℕ) : first [] z = z := rfl

@[simp] theorem first_cons (b : Chunk) (l : List Chunk) (z : ℕ) : first (b :: l) z = b.start := rfl

theorem rep_append : Rep m (l ++ l') z ↔ Rep m l (first l' z) ∧ Rep m l' z := by
  constructor
  · intro h
    have hl := h.links
    rw [map_append, links_append] at hl
    exact ⟨⟨hl.1, fun b hb => h.size b (mem_append_left _ hb)⟩,
      ⟨hl.2, fun b hb => h.size b (mem_append_right _ hb)⟩⟩
  · rintro ⟨h, h'⟩
    refine ⟨?_, fun b hb => ?_⟩
    · rw [map_append, links_append]
      exact ⟨h.links, h'.links⟩
    · exact (mem_append.mp hb).elim (h.size b) (h'.size b)

theorem rep_cons : Rep m (b :: l) z ↔
    ptrAt m b.start = first l z ∧ 8 * sizeAt m b.start = b.len ∧ Rep m l z := by
  constructor
  · intro h
    exact ⟨h.links.1, h.size b mem_cons_self, ⟨h.links.2, fun a ha => h.size a (.tail _ ha)⟩⟩
  · rintro ⟨hptr, hsize, h⟩
    refine ⟨⟨hptr, h.links⟩, fun a ha => ?_⟩
    obtain rfl | ha := mem_cons.mp ha
    · exact hsize
    · exact h.size a ha

theorem Rep.congr (h : Rep m l z) (hm : ∀ b ∈ l, ∀ x, InHeader b.start x → m' x = m x) :
    Rep m' l z := by
  refine ⟨h.links.congr fun p hp => ?_, fun b hb => ?_⟩
  · obtain ⟨b, hb, rfl⟩ := mem_map.mp hp
    exact ptrAt_congr (hm b hb)
  · rw [sizeAt_congr (hm b hb), h.size b hb]

/-! ### A block in front of others -/

theorem plus_sizeAt (hsize : 8 * sizeAt m a.start = a.len) (hstop : a.stop < 2 ^ 32) :
    plus a.start (sizeAt m a.start) = a.stop := by
  rw [plus, hsize]
  exact Nat.mod_eq_of_lt hstop

theorem chain_of_notIn {p q : ℕ} (h : ¬ InHeader p x) : chain m p q x = m x := by
  rw [chain]
  split_ifs
  · rw [setPtr_of_notIn h, setSize_of_notIn h]
  · exact setPtr_of_notIn h

/-- The first half of `free`: the block is joined to its successor if they touch. -/
theorem chain_spec (h : Rep m l z) (hsize : 8 * sizeAt m a.start = a.len) (hstop : a.stop < 2 ^ 32)
    (hl : ∀ b ∈ l, a.start + 8 ≤ b.start ∧ b.stop < 2 ^ 32) (hz : z < 2 ^ 32)
    (hlast : l = [] → a.stop ≠ z) :
    Rep (chain m a.start (first l z)) (join a l) z := by
  have hkeep : ∀ b ∈ l, ∀ x, InHeader b.start x → ¬ InHeader a.start x := fun b hb x hx =>
    hx.notIn (.inr (hl b hb).1)
  have hframe : ∀ l', l' ⊆ l → Rep m l' z → Rep (chain m a.start (first l z)) l' z :=
    fun l' hsub h' => h'.congr fun b hb x hx => chain_of_notIn (hkeep b (hsub hb) x hx)
  have hplus := plus_sizeAt hsize hstop
  cases l with
  | nil =>
    rw [first_nil, chain, hplus, if_neg (hlast rfl)]
    refine rep_cons.mpr ⟨ptrAt_setPtr hz, ?_, ⟨trivial, fun b hb => absurd hb not_mem_nil⟩⟩
    rw [sizeAt_setPtr, hsize]
  | cons b l =>
    obtain ⟨hptr, hbsize, hrest⟩ := rep_cons.mp h
    have hb := hl b mem_cons_self
    rw [first_cons] at hframe ⊢
    by_cases heq : a.stop = b.start
    · have hptr' := ptrAt_congr fun x hx =>
        setSize_of_notIn (m := m) (v := (sizeAt m a.start + sizeAt m b.start) % 2 ^ 32)
          (hkeep b mem_cons_self x hx)
      have hlt : sizeAt m a.start + sizeAt m b.start < 2 ^ 32 := by
        have := hb.2
        simp only [Chunk.stop] at heq this
        omega
      rw [join, if_pos heq]
      refine rep_cons.mpr ⟨?_, ?_, hframe l (subset_cons_self b l) hrest⟩
      · rw [chain, hplus, if_pos heq, ptrAt_setPtr (ptrAt_lt _ _), hptr', hptr]
      · rw [chain, hplus, if_pos heq, sizeAt_setPtr, sizeAt_setSize (Nat.mod_lt _ (by decide)),
          Nat.mod_eq_of_lt hlt, Nat.mul_add, hsize, hbsize]
    · rw [join, if_neg heq]
      refine rep_cons.mpr ⟨?_, ?_, hframe _ (List.Subset.refl _) h⟩
      · rw [first_cons, chain, hplus, if_neg heq]
        exact ptrAt_setPtr (b.start_le_stop.trans_lt hb.2)
      · rw [chain, hplus, if_neg heq, sizeAt_setPtr, hsize]

/-- The two steps of `free`: block `b` is put in front of the blocks behind it, and then the block
in front of it is linked to it. -/
theorem chain_chain_spec (h : Rep m (lo ++ p :: hi) z)
    (hheader : (lo ++ p :: b :: hi).Pairwise fun a d => a.start + 8 ≤ d.start)
    (hsize : 8 * sizeAt m b.start = b.len) (hstop : ∀ a ∈ p :: b :: hi, a.stop < 2 ^ 32)
    (hz : z < 2 ^ 32) (hbz : b.stop ≠ z) :
    Rep (chain (chain m b.start (ptrAt m p.start)) p.start b.start)
      (lo ++ join p (join b hi)) z := by
  obtain ⟨hlo, hmid⟩ := rep_append.mp h
  obtain ⟨hptr, hpsize, hrest⟩ := rep_cons.mp hmid
  obtain ⟨-, hheader, hlo'⟩ := pairwise_append.mp hheader
  obtain ⟨hp, hheader⟩ := pairwise_cons.mp hheader
  have hb := (pairwise_cons.mp hheader).1
  have hpb := hp b mem_cons_self
  have hright : Rep (chain m b.start (first hi z)) (join b hi) z :=
    chain_spec hrest hsize (hstop b (by simp)) (fun a ha => ⟨hb a ha, hstop a (by simp [ha])⟩) hz
      fun _ => hbz
  obtain ⟨n, l, hjoin⟩ := exists_join b hi
  have hfirst : b.start = first (join b hi) z := by
    rw [hjoin]
    rfl
  have hpsize' : 8 * sizeAt (chain m b.start (first hi z)) p.start = p.len := by
    rw [sizeAt_congr fun x hx => chain_of_notIn (hx.notIn (.inl hpb)), hpsize]
  have hleft := chain_spec hright hpsize' (hstop p mem_cons_self) (fun a ha => ⟨?_, ?_⟩) hz
    fun hnil => absurd (hjoin ▸ hnil) (cons_ne_nil _ _)
  · obtain ⟨n', l', hjoin'⟩ := exists_join p (join b hi)
    rw [← hfirst, ← hptr] at hleft
    refine rep_append.mpr ⟨?_, hleft⟩
    rw [hjoin']
    refine hlo.congr fun a ha x hx => ?_
    rw [chain_of_notIn (hx.notIn (.inl (hlo' a ha p mem_cons_self))),
      chain_of_notIn (hx.notIn (.inl (hlo' a ha b (by simp))))]
  · obtain ⟨hstart, -⟩ | ha := mem_join ha
    · rwa [hstart]
    · exact hp a (.tail _ ha)
  · obtain ⟨d, hd, heq⟩ := stop_of_mem_join ha
    exact heq ▸ hstop d (.tail _ hd)

/-! ### The loop of `free` -/

/-- Where the loop of `free` stops. -/
def Stops (m : Ram) (bp p : ℕ) : Prop :=
  (p < bp ∧ bp < ptrAt m p) ∨ (ptrAt m p ≤ p ∧ (p < bp ∨ bp < ptrAt m p))

theorem search_of_stops {bp p : ℕ} (h : Stops m bp p) (fuel : ℕ) :
    search m bp (fuel + 1) p = some p := by
  rw [search]
  obtain h | h := h
  · rw [if_pos h]
  · rw [if_pos h]
    split_ifs <;> rfl

theorem search_of_not {bp p : ℕ} (h : ¬ Stops m bp p) (fuel : ℕ) :
    search m bp (fuel + 1) p = search m bp fuel (ptrAt m p) := by
  rw [Stops, not_or] at h
  rw [search, if_neg h.1, if_neg h.2]

theorem Rep.next (h : Rep m l z) (hgapped : Gapped l) (ha : a ∈ l) :
    ptrAt m a.start = z ∨ ∃ b ∈ l, ptrAt m a.start = b.start ∧ a.start < b.start := by
  induction l with
  | nil => exact absurd ha not_mem_nil
  | cons b l ih =>
    obtain ⟨hptr, -, hrest⟩ := rep_cons.mp h
    obtain ⟨hb, hl⟩ := pairwise_cons.mp hgapped
    obtain rfl | ha := mem_cons.mp ha
    · cases l with
      | nil => exact .inl hptr
      | cons d l =>
        refine .inr ⟨d, by simp, hptr, ?_⟩
        exact a.start_le_stop.trans_lt (hb d mem_cons_self)
    · refine (ih hrest hl ha).imp_right fun ⟨d, hd, hnext⟩ => ?_
      exact ⟨d, mem_cons_of_mem b hd, hnext⟩

theorem stops_iff (h : Rep m (lo ++ p :: hi) base) (hgapped : Gapped (lo ++ p :: hi))
    (hbase : base ≤ p.start) {bp : ℕ} (hp : p.start < bp) (hhi : ∀ a ∈ hi, bp < a.start)
    (ha : a ∈ lo ++ p :: hi) : Stops m bp a.start ↔ a = p := by
  obtain ⟨hlo, hmid⟩ := rep_append.mp h
  obtain ⟨hptr, -, hrest⟩ := rep_cons.mp hmid
  obtain ⟨hglo, hgmid, hlt⟩ := pairwise_append.mp hgapped
  have hghi := (pairwise_cons.mp hgmid).2
  have hlop : ∀ a ∈ lo, a.start < p.start := fun a ha =>
    a.start_le_stop.trans_lt (hlt a ha p mem_cons_self)
  rw [mem_append, mem_cons] at ha
  obtain ha | rfl | ha := ha
  · have hap := hlop a ha
    have hnext : a.start < ptrAt m a.start ∧ ptrAt m a.start ≤ p.start := by
      obtain hnext | ⟨b, hb, hnext, hab⟩ := hlo.next hglo ha
      · rw [hnext, first_cons]
        exact ⟨hap, Nat.le_refl _⟩
      · rw [hnext]
        exact ⟨hab, (hlop b hb).le⟩
    refine ⟨fun hstops => ?_, fun heq => absurd hap (heq ▸ Nat.lt_irrefl _)⟩
    rw [Stops] at hstops
    omega
  · refine ⟨fun _ => rfl, fun _ => ?_⟩
    rw [Stops, hptr]
    cases hi with
    | nil => exact .inr ⟨hbase, .inl hp⟩
    | cons b hi => exact .inl ⟨hp, hhi b mem_cons_self⟩
  · have hbp := hhi a ha
    refine ⟨fun hstops => ?_, fun heq => ?_⟩
    · rw [Stops] at hstops
      obtain hnext | ⟨b, -, hnext, hab⟩ := hrest.next hghi ha
      · omega
      · omega
    · rw [heq] at hbp
      omega

theorem Layout.exists_starts (h : Layout base c live regions) :
    ∃ l, c.map Chunk.start = base :: l := by
  obtain ⟨l, rfl⟩ : ∃ l, c = ⟨base, 0⟩ :: l := head?_eq_some_iff.mp h.head
  exact ⟨l.map Chunk.start, rfl⟩

theorem Layout.base_le (h : Layout base c live regions) (hb : b ∈ c) : base ≤ b.start := by
  obtain rfl | hb := h.proper_free b hb
  · exact Nat.le_refl _
  · exact (Nat.le_add_right _ _).trans hb.1

/-- The search of `free` finds the block that precedes the given address. -/
theorem search_spec (h : Rep m (lo ++ p :: hi) base)
    (hlayout : Layout base (lo ++ p :: hi) live regions)
    {bp : ℕ} (hp : p.start < bp) (hhi : ∀ a ∈ hi, bp < a.start)
    (hx : x ∈ (lo ++ p :: hi).map Chunk.start) :
    ∃ k, ∀ fuel, search m bp (fuel + k) x = some p.start := by
  have hpmem : p ∈ lo ++ p :: hi := by simp
  have hstops : ∀ a ∈ lo ++ p :: hi, Stops m bp a.start ↔ a = p := fun a ha =>
    stops_iff h hlayout.gapped (hlayout.base_le hpmem) hp hhi ha
  have hlinks := h.links
  obtain ⟨l, hl⟩ := hlayout.exists_starts
  have hreach : ∃ k, (ptrAt m)^[k] x = p.start := by
    have hmem := mem_map_of_mem (f := Chunk.start) hpmem
    rw [hl] at hlinks hx hmem
    exact hlinks.exists_iterate hx hmem
  obtain ⟨k, hk⟩ := hreach
  refine ⟨k + 1, fun fuel => ?_⟩
  induction k generalizing x with
  | zero =>
    obtain rfl : x = p.start := hk
    exact search_of_stops ((hstops p hpmem).mpr rfl) _
  | succ k ih =>
    obtain ⟨a, ha, rfl⟩ := mem_map.mp hx
    by_cases hap : a = p
    · rw [hap]
      exact search_of_stops ((hstops p hpmem).mpr rfl) _
    · rw [← Nat.add_assoc, search_of_not fun hs => hap ((hstops a ha).mp hs)]
      refine ih ?_ hk
      rw [hl] at hlinks hx ⊢
      exact hlinks.iterate_mem hx 1

/-! ### The invariant -/

/-- The invariant of the allocator: the blocks of the heap, the free list in memory, and the sizes
of the blocks in use. -/
structure Heap.Ok {W : Type} (base : ℕ) (h : Heap W) (c live regions : List Chunk) : Prop where
  layout : Layout base c live regions
  rep : Rep h.ram c base
  freep : h.freep ∈ c.map Chunk.start
  size (b : Chunk) (hb : b ∈ live) : 8 * sizeAt h.ram b.start = b.len
  pos : 0 < base
  lt : base < 2 ^ 32

theorem Layout.pairwise_header (h : Layout base c live regions) :
    c.Pairwise fun a b => a.start + 8 ≤ b.start := by
  refine h.gapped.imp_of_mem fun {a b} ha hb hab => ?_
  have hle := h.base_le ha
  have := a.start_le_stop
  obtain rfl | hb' := h.proper_free b hb
  · simp only at hab
    omega
  · obtain rfl | ha' := h.proper_free a ha
    · exact hb'.1
    · have := ha'.2
      simp only [Chunk.stop] at hab
      omega

theorem Layout.header_apart (h : Layout base c live regions) (ha : a ∈ c) (hb : b ∈ live) :
    a.start + 8 ≤ b.start ∨ b.start + 8 ≤ a.start := by
  have hb' := h.proper_live b hb
  have hab := h.apart a ha b hb
  obtain rfl | ha' := h.proper_free a ha
  · exact .inl hb'.1
  · have := ha'.2
    have := hb'.2
    simp only [Apart, Chunk.stop] at hab
    omega

theorem Layout.header_apart_live (h : Layout base c (b :: live) regions) (ha : a ∈ live) :
    a.start + 8 ≤ b.start ∨ b.start + 8 ≤ a.start := by
  have hb' := h.proper_live b mem_cons_self
  have ha' := h.proper_live a (.tail _ ha)
  have hab := (pairwise_cons.mp h.pairwise).1 a ha
  have := ha'.2
  have := hb'.2
  simp only [Apart, Chunk.stop] at hab
  omega

theorem Layout.header_notIn (h : Layout base c live regions) (ha : a ∈ c ∨ a ∈ live)
    (hb : b ∈ live) (hx : InHeader a.start x) : ¬ (b.start + 8 ≤ x ∧ x < b.stop) := by
  have hb' := h.proper_live b hb
  have hapart : a = ⟨base, 0⟩ ∨ 8 ≤ a.len ∧ (a = b ∨ Apart a b) := by
    obtain ha | ha := ha
    · exact (h.proper_free a ha).imp_right fun ha' => ⟨ha'.2, .inr (h.apart a ha b hb)⟩
    · refine .inr ⟨(h.proper_live a ha).2, ?_⟩
      by_cases heq : a = b
      · exact .inl heq
      · exact .inr (h.pairwise.forall ha hb heq)
  have := hb'.1
  obtain rfl | ⟨hlen, rfl | hab⟩ := hapart
  · simp only [InHeader] at hx
    omega
  · simp only [InHeader] at hx
    omega
  · simp only [InHeader, Apart, Chunk.stop] at hx hab ⊢
    omega

theorem Layout.exists_split (h : Layout base c (b :: live) regions) :
    ∃ lo p hi, c = lo ++ p :: hi ∧ p.start < b.start ∧ ∀ a ∈ hi, b.start < a.start := by
  obtain ⟨l, rfl⟩ : ∃ l, c = ⟨base, 0⟩ :: l := head?_eq_some_iff.mp h.head
  have hb := h.proper_live b mem_cons_self
  refine h.gapped.exists_split ((Nat.lt_add_of_pos_right (by decide)).trans_le hb.1) fun a ha => ?_
  have := h.header_apart (mem_cons_of_mem _ ha) mem_cons_self
  omega

variable {W : Type} {h : Heap W}

theorem Heap.Ok.stop_lt (ok : h.Ok base c live regions) (ha : a ∈ c) : a.stop < 2 ^ 32 := by
  obtain rfl | ha' := ok.layout.proper_free a ha
  · exact ok.lt
  · exact ok.layout.stop_lt (.inl ha) ha'

theorem Layout.pairwise_insert (h : Layout base (lo ++ p :: hi) (b :: live) regions)
    (hp : p.start < b.start) (hhi : ∀ a ∈ hi, b.start < a.start) :
    (lo ++ p :: b :: hi).Pairwise fun a d => a.start + 8 ≤ d.start := by
  have happart : ∀ a ∈ lo ++ p :: hi, a.start + 8 ≤ b.start ∨ b.start + 8 ≤ a.start :=
    fun a ha => h.header_apart ha mem_cons_self
  obtain ⟨hlo, hmid, hlt⟩ := pairwise_append.mp h.pairwise_header
  obtain ⟨hphi, hhi'⟩ := pairwise_cons.mp hmid
  have hpb : p.start + 8 ≤ b.start := by
    have := happart p (by simp)
    omega
  refine pairwise_append.mpr ⟨hlo, pairwise_cons.mpr ⟨fun d hd => ?_,
    pairwise_cons.mpr ⟨fun a ha => ?_, hhi'⟩⟩, fun a ha d hd => ?_⟩
  · obtain rfl | hd := mem_cons.mp hd
    · exact hpb
    · exact hphi d hd
  · have := happart a (by simp [ha])
    have := hhi a ha
    omega
  · have hap := hlt a ha p mem_cons_self
    obtain rfl | hd := mem_cons.mp hd
    · exact hap
    obtain rfl | hd := mem_cons.mp hd
    · omega
    · exact hlt a ha d (.tail _ hd)

theorem Heap.Ok.free (ok : h.Ok base c (b :: live) regions) :
    ∃ k h' c', (∀ fuel, Malloc.free (fuel + k) (b.start + 8) h = some h') ∧
      h'.Ok base c' live regions ∧ h'.world = h.world ∧ ∃ d ∈ c', b.len ≤ d.len := by
  obtain ⟨lo, p, hi, rfl, hp, hhi⟩ := ok.layout.exists_split
  have hb := ok.layout.proper_live b mem_cons_self
  have hbstop := ok.layout.stop_lt (.inr mem_cons_self) hb
  obtain ⟨k, hsearch⟩ := search_spec ok.rep ok.layout hp hhi ok.freep
  have hbp : (b.start + 8 + (2 ^ 32 - 8)) % 2 ^ 32 = b.start := by
    have := b.start_le_stop
    omega
  have hfree : ∀ fuel, Malloc.free (fuel + k) (b.start + 8) h = some ⟨chain (chain h.ram b.start
      (ptrAt h.ram p.start)) p.start b.start, p.start, h.world⟩ := by
    intro fuel
    rw [Malloc.free, hbp, hsearch]
    rfl
  have hpmem : p ∈ lo ++ p :: hi := by simp
  refine ⟨k, _, _, hfree, ⟨ok.layout.release hp hhi, ?_, ?_, fun d hd => ?_, ok.pos, ok.lt⟩, rfl,
    ?_⟩
  · refine chain_chain_spec ok.rep (ok.layout.pairwise_insert hp hhi)
      (ok.size b mem_cons_self) (fun a ha => ?_) ok.lt ?_
    · obtain rfl | ha := mem_cons.mp ha
      · exact ok.stop_lt hpmem
      obtain rfl | ha := mem_cons.mp ha
      · exact hbstop
      · exact ok.stop_lt (by simp [ha])
    · have := b.start_le_stop
      have := hb.1
      omega
  · obtain ⟨n, l, hjoin⟩ := exists_join p (join b hi)
    rw [hjoin]
    simp
  · rw [← ok.size d (.tail _ hd), sizeAt_congr fun x hx => ?_]
    exact (chain_of_notIn (hx.notIn (ok.layout.header_apart hpmem (.tail _ hd)).symm)).trans
      (chain_of_notIn (hx.notIn (ok.layout.header_apart_live hd)))
  · obtain ⟨d, hd, hlen⟩ := exists_mem_join (mem_cons_self : b ∈ b :: hi)
    obtain ⟨e, he, hlen'⟩ := exists_mem_join (mem_cons_of_mem p hd)
    exact ⟨e, mem_append_right lo he, hlen.trans hlen'⟩

theorem Heap.Ok.takeWhole (ok : h.Ok base (lo ++ q :: p :: hi) live regions) {n : ℕ}
    (hsize : sizeAt h.ram p.start = n) : ∃ h', Malloc.take n q.start p.start h = (p.start + 8, h') ∧
      h'.Ok base (lo ++ q :: hi) (p :: live) regions ∧ h'.world = h.world := by
  have hp := ok.layout.proper_of_gapped
  have hstop := ok.layout.stop_lt (.inl (by simp)) hp
  have hplus : plus p.start 1 = p.start + 8 := by
    have := hp.2
    rw [Chunk.stop] at hstop
    rw [plus]
    omega
  have hlayout := ok.layout.remove
  obtain ⟨hlo, hmid⟩ := rep_append.mp ok.rep
  obtain ⟨-, hqsize, htail⟩ := rep_cons.mp hmid
  obtain ⟨hptr, hpsize, hrest⟩ := rep_cons.mp htail
  obtain ⟨-, hhdr, hhdrlo⟩ := pairwise_append.mp ok.layout.pairwise_header
  have hqhi := (pairwise_cons.mp hhdr).1
  refine ⟨⟨setPtr h.ram q.start (ptrAt h.ram p.start), q.start, h.world⟩, ?_,
    ⟨hlayout, ?_, by simp, fun b hb => ?_, ok.pos, ok.lt⟩, rfl⟩
  · rw [Malloc.take, if_pos hsize, hplus]
  · refine rep_append.mpr ⟨hlo.congr fun a ha x hx => setPtr_of_notIn ?_, rep_cons.mpr ⟨?_, ?_,
      hrest.congr fun a ha x hx => setPtr_of_notIn ?_⟩⟩
    · exact hx.notIn (.inl (hhdrlo a ha q mem_cons_self))
    · rw [ptrAt_setPtr (ptrAt_lt _ _), hptr]
    · rw [sizeAt_setPtr, hqsize]
    · exact hx.notIn (.inr (hqhi a (.tail _ ha)))
  · have hb' : 8 * sizeAt h.ram b.start = b.len := by
      obtain rfl | hb := mem_cons.mp hb
      · exact hpsize
      · exact ok.size b hb
    rw [← hb', sizeAt_congr fun x hx => setPtr_of_notIn (hx.notIn ?_)]
    exact (hlayout.header_apart (by simp : q ∈ lo ++ q :: hi) hb).symm

theorem Heap.Ok.takeEnd (ok : h.Ok base (lo ++ p :: hi) live regions) (hp : Proper base p) {n : ℕ}
    (hn : 0 < n) (hsize : n < sizeAt h.ram p.start) (hq : x ∈ lo.map Chunk.start) :
    ∃ h', Malloc.take n x p.start h = (p.start + (p.len - 8 * n) + 8, h') ∧
      h'.Ok base (lo ++ ⟨p.start, p.len - 8 * n⟩ :: hi)
        (⟨p.start + (p.len - 8 * n), 8 * n⟩ :: live) regions ∧ h'.world = h.world := by
  have hstop := ok.layout.stop_lt (.inl (by simp)) hp
  rw [Chunk.stop] at hstop
  obtain ⟨hlo, hmid⟩ := rep_append.mp ok.rep
  obtain ⟨hptr, hpsize, hrest⟩ := rep_cons.mp hmid
  have hlayout := ok.layout.split hp (n := 8 * n) (by omega) (by omega)
  have hdiff : (sizeAt h.ram p.start + (2 ^ 32 - n)) % 2 ^ 32 = sizeAt h.ram p.start - n := by
    omega
  set m := setSize h.ram p.start (sizeAt h.ram p.start - n) with hm
  have hsize' : sizeAt m p.start = sizeAt h.ram p.start - n := sizeAt_setSize (by omega)
  have hplus : plus p.start (sizeAt m p.start) = p.start + (p.len - 8 * n) := by
    rw [plus, hsize']
    omega
  have hplus' : plus (p.start + (p.len - 8 * n)) 1 = p.start + (p.len - 8 * n) + 8 := by
    rw [plus]
    omega
  have hframe : ∀ x, ¬ InHeader p.start x → ¬ InHeader (p.start + (p.len - 8 * n)) x →
      setSize m (p.start + (p.len - 8 * n)) n x = h.ram x := by
    intro x hxp hxd
    rw [setSize_of_notIn hxd, hm, setSize_of_notIn hxp]
  have hkeep : ∀ x, InHeader p.start x → setSize m (p.start + (p.len - 8 * n)) n x = m x := by
    intro x hx
    refine setSize_of_notIn ?_
    simp only [InHeader] at hx ⊢
    omega
  obtain ⟨-, -, hhdrlo⟩ := pairwise_append.mp ok.layout.pairwise_header
  obtain ⟨-, hgap, -⟩ := pairwise_append.mp ok.layout.gapped
  refine ⟨⟨setSize m (p.start + (p.len - 8 * n)) n, x, h.world⟩, ?_,
    ⟨hlayout, ?_, ?_, fun b hb => ?_, ok.pos, ok.lt⟩, rfl⟩
  · rw [Malloc.take, if_neg (by omega)]
    simp only [hdiff, ← hm, hplus, hplus']
  · refine rep_append.mpr ⟨hlo.congr fun a ha x hx => ?_, rep_cons.mpr ⟨?_, ?_,
      hrest.congr fun a ha x hx => ?_⟩⟩
    · have := hhdrlo a ha p mem_cons_self
      refine hframe x ?_ ?_ <;> simp only [InHeader] at hx ⊢ <;> omega
    · change ptrAt (setSize m _ n) p.start = first hi base
      rw [ptrAt_congr hkeep, hm, ptrAt_setSize, hptr]
    · change 8 * sizeAt (setSize m _ n) p.start = p.len - 8 * n
      rw [sizeAt_congr hkeep, hsize']
      omega
    · have := (pairwise_cons.mp hgap).1 a ha
      rw [Chunk.stop] at this
      refine hframe x ?_ ?_ <;> simp only [InHeader] at hx ⊢ <;> omega
  · rw [map_append]
    exact mem_append_left _ hq
  · obtain rfl | hb := mem_cons.mp hb
    · exact congrArg (8 * ·) (sizeAt_setSize (by omega))
    · have hapart := ok.layout.apart p (by simp) b hb
      have := (ok.layout.proper_live b hb).2
      simp only [Apart, Chunk.stop] at hapart
      rw [← ok.size b hb, sizeAt_congr fun x hx => hframe x ?_ ?_]
      · simp only [InHeader] at hx ⊢
        omega
      · simp only [InHeader] at hx ⊢
        omega

end Dave.Malloc
