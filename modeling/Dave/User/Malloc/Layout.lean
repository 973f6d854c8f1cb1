import Dave.Lib.Blocks
import Mathlib.Algebra.Group.Nat.Defs

/-!
# The blocks of the heap

The bytes that `sbrk` has returned belong to free blocks and to blocks that `malloc` has returned.
The free blocks are in the order of their addresses, without two that are adjacent, and begin with
the static header, which has no bytes of its own.
-/

namespace Dave.Malloc

open List Blocks

/-- A block behind the static header, with room for a header. -/
def Proper (base : ℕ) (b : Chunk) : Prop := base + 8 ≤ b.start ∧ 8 ≤ b.len

/-- The free blocks, with the static header, the blocks that are in use, and the regions that `sbrk`
has returned. -/
structure Layout (base : ℕ) (c live regions : List Chunk) : Prop where
  head : c.head? = some ⟨base, 0⟩
  gapped : Gapped c
  proper_free (b : Chunk) (hb : b ∈ c) : b = ⟨base, 0⟩ ∨ Proper base b
  proper_live (b : Chunk) (hb : b ∈ live) : Proper base b
  apart (a : Chunk) (ha : a ∈ c) (b : Chunk) (hb : b ∈ live) : Apart a b
  pairwise : live.Pairwise Apart
  covers (x : ℕ) : Covers regions x ↔ Covers c x ∨ Covers live x
  bound (r : Chunk) (hr : r ∈ regions) : r.stop < 2 ^ 32

namespace Layout

variable {base : ℕ} {c lo hi live live' regions : List Chunk} {b p q : Chunk}

theorem exists_region (h : Layout base c live regions) (hb : b ∈ c ∨ b ∈ live)
    (hproper : Proper base b) : ∃ r ∈ regions, b.stop ≤ r.stop := by
  have hlast : b.start ≤ b.stop - 1 ∧ b.stop - 1 < b.stop := by
    have := hproper.2
    rw [Chunk.stop]
    omega
  obtain ⟨r, hr, -, hlt⟩ := (h.covers (b.stop - 1)).mpr
    (hb.imp (fun hb => ⟨b, hb, hlast⟩) fun hb => ⟨b, hb, hlast⟩)
  exact ⟨r, hr, by omega⟩

theorem stop_lt (h : Layout base c live regions) (hb : b ∈ c ∨ b ∈ live)
    (hproper : Proper base b) : b.stop < 2 ^ 32 := by
  obtain ⟨r, hr, hle⟩ := h.exists_region hb hproper
  exact hle.trans_lt (h.bound r hr)

theorem perm (h : Layout base c live regions) (hperm : live.Perm live') :
    Layout base c live' regions where
  head := h.head
  gapped := h.gapped
  proper_free := h.proper_free
  proper_live b hb := h.proper_live b (hperm.mem_iff.mpr hb)
  apart a ha b hb := h.apart a ha b (hperm.mem_iff.mpr hb)
  pairwise := hperm.pairwise h.pairwise Apart.symm
  covers x := by
    rw [h.covers x]
    exact or_congr_right (exists_congr fun b => and_congr_left fun _ => hperm.mem_iff)
  bound := h.bound

theorem head_append {l : List Chunk} (hhead : (lo ++ p :: hi).head? = some ⟨base, 0⟩)
    (hp : l.head? = some p ∨ lo ≠ []) : (lo ++ l).head? = some ⟨base, 0⟩ := by
  cases lo with
  | nil =>
    obtain hp | hp := hp
    · exact hp.trans hhead
    · exact absurd rfl hp
  | cons a lo => exact hhead

theorem proper_of_gapped (h : Layout base (lo ++ q :: p :: hi) live regions) : Proper base p := by
  have hmem : p ∈ lo ++ q :: p :: hi := by simp
  obtain rfl | hp := h.proper_free p hmem
  · exfalso
    have hqp : q.stop < base := by
      have := (pairwise_append.mp h.gapped).2.1
      exact (pairwise_cons.mp this).1 _ mem_cons_self
    obtain rfl | hq := h.proper_free q (by simp)
    · exact absurd hqp (Nat.lt_irrefl base)
    · have := q.start_le_stop
      have := hq.1
      omega
  · exact hp

theorem release (h : Layout base (lo ++ p :: hi) (b :: live) regions) (hp : p.start < b.start)
    (hhi : ∀ a ∈ hi, b.start < a.start) :
    Layout base (lo ++ join p (join b hi)) live regions := by
  have hb := h.proper_live b mem_cons_self
  have hapart := fun a ha => h.apart a ha b mem_cons_self
  obtain ⟨hglo, hgp, hlt⟩ := pairwise_append.mp h.gapped
  obtain ⟨hphi, hghi⟩ := pairwise_cons.mp hgp
  have hbhi : ∀ a ∈ hi, b.stop ≤ a.start := by
    intro a ha
    have := hhi a ha
    have := a.start_le_stop
    obtain h | h := hapart a (by simp [ha])
    · omega
    · exact h
  have hpb : p.stop ≤ b.start := by
    have := b.start_le_stop
    obtain h | h := hapart p (by simp)
    · exact h
    · omega
  have hjoin : ∀ a ∈ join b hi, p.stop ≤ a.start := by
    intro a ha
    obtain ⟨hstart, -⟩ | ha := mem_join ha
    · rwa [hstart]
    · exact (hphi a ha).le
  have hproper : ∀ a ∈ join b hi, Proper base a := by
    intro a ha
    obtain ⟨hstart, hlen⟩ | ha := mem_join ha
    · exact ⟨hstart ▸ hb.1, hb.2.trans hlen⟩
    · obtain rfl | ha' := h.proper_free a (by simp [ha])
      · have hlt : b.start < base := hhi _ ha
        have := hb.1
        omega
      · exact ha'
  -- the static header is not joined with what follows it
  have hcases : p = ⟨base, 0⟩ ∧ join p (join b hi) = p :: join b hi ∨ Proper base p := by
    obtain rfl | hp' := h.proper_free p (by simp)
    · refine .inl ⟨rfl, join_of_lt fun a ha => ?_⟩
      have := (hproper a ha).1
      simp only [Chunk.stop]
      omega
    · exact .inr hp'
  refine ⟨?_, ?_, fun a ha => ?_, fun a ha => h.proper_live a (.tail _ ha), fun a ha d hd => ?_,
    (pairwise_cons.mp h.pairwise).2, fun x => ?_, h.bound⟩
  · refine head_append h.head ?_
    obtain ⟨-, heq⟩ | hp' := hcases
    · exact .inl (by rw [heq]; rfl)
    · refine .inr fun hnil => ?_
      have hhead := h.head
      rw [hnil] at hhead
      obtain rfl := Option.some.inj hhead
      exact absurd hp'.2 (by simp)
  · refine pairwise_append.mpr ⟨hglo, (Gapped.join hghi hbhi).join hjoin, fun a ha d hd => ?_⟩
    have hap := hlt a ha p mem_cons_self
    obtain ⟨hstart, -⟩ | hd := mem_join hd
    · rwa [hstart]
    · exact hap.trans_le (p.start_le_stop.trans (hjoin d hd))
  · obtain ha | ha := mem_append.mp ha
    · exact h.proper_free a (by simp [ha])
    · obtain ⟨rfl, heq⟩ | hp' := hcases
      · rw [heq] at ha
        exact (mem_cons.mp ha).imp_right (hproper a)
      · obtain ⟨hstart, hlen⟩ | ha := mem_join ha
        · exact .inr ⟨hstart ▸ hp'.1, hp'.2.trans hlen⟩
        · exact .inr (hproper a ha)
  · have hd' := h.proper_live d (.tail _ hd)
    have hpos : 0 < d.len := Nat.lt_of_lt_of_le (by decide) hd'.2
    have hold := fun a ha => h.apart a ha d (.tail _ hd)
    have hbd := (pairwise_cons.mp h.pairwise).1 d hd
    obtain ha | ha := mem_append.mp ha
    · exact hold a (by simp [ha])
    · have hbhi' : ∀ a ∈ join b hi, Apart a d := by
        refine apart_join hpos fun a ha => ?_
        obtain rfl | ha := mem_cons.mp ha
        · exact hbd
        · exact hold a (by simp [ha])
      refine apart_join hpos (fun a ha => ?_) a ha
      obtain rfl | ha := mem_cons.mp ha
      · exact hold a (by simp)
      · exact hbhi' a ha
  · simp only [h.covers x, covers_append, covers_join, covers_cons]
    tauto

theorem remove (h : Layout base (lo ++ q :: p :: hi) live regions) :
    Layout base (lo ++ q :: hi) (p :: live) regions := by
  have hsub : (lo ++ q :: hi).Sublist (lo ++ q :: p :: hi) := by simp
  obtain ⟨-, hgq, hlt⟩ := pairwise_append.mp h.gapped
  obtain ⟨hq, hgp⟩ := pairwise_cons.mp hgq
  have hp := (pairwise_cons.mp hgp).1
  refine ⟨head_append h.head (.inl rfl), h.gapped.sublist hsub,
    fun a ha => h.proper_free a (hsub.subset ha), fun a ha => ?_, fun a ha d hd => ?_,
    pairwise_cons.mpr ⟨fun d hd => h.apart p (by simp) d hd, h.pairwise⟩, fun x => ?_,
    h.bound⟩
  · obtain rfl | ha := mem_cons.mp ha
    · exact h.proper_of_gapped
    · exact h.proper_live a ha
  · obtain rfl | hd := mem_cons.mp hd
    · rw [mem_append, mem_cons] at ha
      obtain ha | rfl | ha := ha
      · exact .inl (hlt a ha d (by simp)).le
      · exact .inl (hq d mem_cons_self).le
      · exact .inr (hp a ha).le
    · exact h.apart a (hsub.subset ha) d hd
  · simp only [h.covers x, covers_append, covers_cons]
    tauto

theorem split (h : Layout base (lo ++ p :: hi) live regions) (hp : Proper base p) {n : ℕ}
    (hn : 8 ≤ n) (hle : n + 8 ≤ p.len) :
    Layout base (lo ++ ⟨p.start, p.len - n⟩ :: hi) (⟨p.start + (p.len - n), n⟩ :: live)
      regions := by
  obtain ⟨hglo, hgp, hlt⟩ := pairwise_append.mp h.gapped
  obtain ⟨hphi, hghi⟩ := pairwise_cons.mp hgp
  have hstop : (⟨p.start, p.len - n⟩ : Chunk).stop ≤ p.stop := by
    simp only [Chunk.stop]
    omega
  have hstop' : (⟨p.start + (p.len - n), n⟩ : Chunk).stop = p.stop := by
    simp only [Chunk.stop]
    omega
  refine ⟨head_append h.head (.inr fun hnil => ?_), ?_, fun a ha => ?_, fun a ha => ?_,
    fun a ha d hd => ?_, pairwise_cons.mpr ⟨fun d hd => ?_, h.pairwise⟩, fun x => ?_, h.bound⟩
  · have hhead := h.head
    rw [hnil] at hhead
    obtain rfl := Option.some.inj hhead
    exact absurd hp.2 (by simp)
  · refine pairwise_append.mpr ⟨hglo, pairwise_cons.mpr ⟨fun a ha => ?_, hghi⟩, fun a ha d hd => ?_⟩
    · exact hstop.trans_lt (hphi a ha)
    · obtain rfl | hd := mem_cons.mp hd
      · exact hlt a ha p mem_cons_self
      · exact hlt a ha d (mem_cons_of_mem p hd)
  · rw [mem_append, mem_cons] at ha
    obtain ha | rfl | ha := ha
    · exact h.proper_free a (by simp [ha])
    · exact .inr ⟨hp.1, by simp only; omega⟩
    · exact h.proper_free a (by simp [ha])
  · obtain rfl | ha := mem_cons.mp ha
    · exact ⟨hp.1.trans (Nat.le_add_right _ _), hn⟩
    · exact h.proper_live a ha
  · have hcut : ∀ d, Apart p d → Apart ⟨p.start, p.len - n⟩ d := by
      intro d hd
      simp only [Apart, Chunk.stop] at hd ⊢
      omega
    rw [mem_append, mem_cons] at ha
    obtain rfl | hd := mem_cons.mp hd
    · obtain ha | rfl | ha := ha
      · refine .inl ((hlt a ha p mem_cons_self).le.trans (Nat.le_add_right _ _))
      · exact .inl (Nat.le_refl _)
      · refine .inr ?_
        rw [hstop']
        exact (hphi a ha).le
    · obtain ha | rfl | ha := ha
      · exact h.apart a (by simp [ha]) d hd
      · exact hcut d (h.apart p (by simp) d hd)
      · exact h.apart a (by simp [ha]) d hd
  · have hpd := h.apart p (by simp) d hd
    simp only [Apart, Chunk.stop] at hpd ⊢
    omega
  · have hparts : (p.start ≤ x ∧ x < p.start + p.len) ↔
        (p.start ≤ x ∧ x < p.start + (p.len - n)) ∨
          (p.start + (p.len - n) ≤ x ∧ x < p.start + (p.len - n) + n) := by
      omega
    simp only [h.covers x, covers_append, covers_cons, Chunk.stop]
    rw [hparts]
    tauto

theorem extend (h : Layout base c live regions) (hb : Proper base b) (hstop : b.stop < 2 ^ 32)
    (hregions : ∀ r ∈ regions, r.stop ≤ b.start) :
    Layout base c (b :: live) (b :: regions) := by
  have hbelow : ∀ a, a ∈ c ∨ a ∈ live → Proper base a → a.stop ≤ b.start := by
    intro a ha hproper
    obtain ⟨r, hr, hle⟩ := h.exists_region ha hproper
    exact hle.trans (hregions r hr)
  refine ⟨h.head, h.gapped, h.proper_free, fun a ha => ?_, fun a ha d hd => ?_,
    pairwise_cons.mpr ⟨fun d hd => ?_, h.pairwise⟩, fun x => ?_, fun r hr => ?_⟩
  · obtain rfl | ha := mem_cons.mp ha
    · exact hb
    · exact h.proper_live a ha
  · obtain rfl | hd := mem_cons.mp hd
    · obtain rfl | hproper := h.proper_free a ha
      · exact .inl ((Nat.le_add_right _ _).trans hb.1)
      · exact .inl (hbelow a (.inl ha) hproper)
    · exact h.apart a ha d hd
  · exact .inr (hbelow d (.inr hd) (h.proper_live d hd))
  · simp only [covers_cons, h.covers x]
    tauto
  · obtain rfl | hr := mem_cons.mp hr
    · exact hstop
    · exact h.bound r hr

end Layout

end Dave.Malloc
