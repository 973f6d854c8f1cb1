import Dave.Bcache.Code
import Dave.Lib.Cyclic

/-!
# The list of the buffers

`Dave.Bcache.Code` takes the list through `next` and `prev` as a sequence. Here are its pointers:
`binit` and the sections of `bget` and `brelse` under `bcache.lock`, by any number of processes. The
list always has every buffer once, and the buffers without references come in the order in which
they were last released.
-/

namespace Dave.Bcache.Lru

open List

open Function (update update_apply update_self update_of_ne)

/-! ### Code -/

/-- A node of the list: a buffer, or `bcache.head`. -/
abbrev Node : Type := Option (Fin nBuf)

/-- The pointers of the nodes. -/
structure Links where
  next : Node → Node
  prev : Node → Node

/-- Put buffer `i` behind the head. -/
def Links.insertHead (l : Links) (i : Fin nBuf) : Links :=
  -- `b->next = bcache.head.next` and `b->prev = &bcache.head`
  let next := update l.next (some i) (l.next none)
  let prev := update l.prev (some i) none
  -- `bcache.head.next->prev = b` and `bcache.head.next = b`
  ⟨update next none (some i), update prev (next none) (some i)⟩

/-- Take buffer `i` out of the list. -/
def Links.unlink (l : Links) (i : Fin nBuf) : Links :=
  -- `b->next->prev = b->prev` and `b->prev->next = b->next`
  let prev := update l.prev (l.next (some i)) (l.prev (some i))
  ⟨update l.next (prev (some i)) (l.next (some i)), prev⟩

/-- `bcache`, and the history: the references that processes have got from `bget` and not given
back yet, and the buffers that have been released, by their last release, the latest first. -/
structure Cache (P : Type) where
  links : Links
  dev : Fin nBuf → Word
  blockno : Fin nBuf → Word
  dirty : Fin nBuf → Bool
  refcnt : Fin nBuf → ℕ
  refs : List (P × Fin nBuf)
  released : List (Fin nBuf)

/-- A loop along the list that stops at the first buffer with the property. -/
def walk (along : Node → Node) (found : Fin nBuf → Bool) : ℕ → Node → Option (Fin nBuf)
  | _, none => none
  | 0, some _ => none
  | fuel + 1, some i => if found i then some i else walk along found fuel (along (some i))

variable {P : Type}

def binit : Cache P where
  links := (finRange nBuf).foldl Links.insertHead ⟨fun _ => none, fun _ => none⟩
  dev _ := 0
  blockno _ := 0
  dirty _ := false
  refcnt _ := 0
  refs := []
  released := []

namespace Cache

variable (c : Cache P)

/-- The first loop of `bget`. -/
def cached (dev blockno : Word) : Option (Fin nBuf) :=
  walk c.links.next (fun i => c.dev i = dev ∧ c.blockno i = blockno) nBuf (c.links.next none)

/-- The second loop of `bget`. -/
def unused : Option (Fin nBuf) :=
  walk c.links.prev (fun i => c.refcnt i = 0 ∧ c.dirty i = false) nBuf (c.links.prev none)

/-- The section of `bget`, by process `p`; it panics if there is no buffer left. -/
def bget (p : P) (dev blockno : Word) : Option (Cache P) :=
  match c.cached dev blockno with
  | some i =>
    some { c with refcnt := update c.refcnt i (c.refcnt i + 1), refs := (p, i) :: c.refs }
  | none =>
    c.unused.map fun i => { c with
      dev := update c.dev i dev
      blockno := update c.blockno i blockno
      dirty := update c.dirty i false
      refcnt := update c.refcnt i 1
      refs := (p, i) :: c.refs }

variable [DecidableEq P]

/-- The section of `brelse`, by process `p`. -/
def brelse (p : P) (i : Fin nBuf) : Cache P :=
  { c with
    refcnt := update c.refcnt i (c.refcnt i - 1)
    links := if c.refcnt i - 1 = 0 then (c.links.unlink i).insertHead i else c.links
    refs := c.refs.erase (p, i)
    released := i :: c.released.filter (· ≠ i) }

end Cache

/-- What happens to the buffers. -/
inductive Act (P : Type) where
  | bget (p : P) (dev blockno : Word)
  | brelse (p : P) (i : Fin nBuf)
  /-- `B_DIRTY` is set or cleared, by `log_write`, `bwrite` or `iderw` -/
  | flag (i : Fin nBuf) (dirty : Bool)

/-- A process releases buffers that it has got from `bget`. -/
def step [DecidableEq P] (c : Cache P) : Act P → Option (Cache P)
  | .bget p dev blockno => c.bget p dev blockno
  | .brelse p i => if (p, i) ∈ c.refs then some (c.brelse p i) else none
  | .flag i dirty => some { c with dirty := update c.dirty i dirty }

abbrev Runs [DecidableEq P] : Cache P → List (Act P) → Cache P → Prop := Run step anyEvent

/-! ### Pointers of a list -/

section Pointers

variable {l : Links} {o xs ys : List (Fin nBuf)} {i : Fin nBuf}

/-- The list has the buffers `o`, in this order. -/
structure Rep (l : Links) (o : List (Fin nBuf)) : Prop where
  next : Cyclic.Links l.next (none :: o.map some) none
  prev : Cyclic.Links l.prev (none :: o.reverse.map some) none

theorem Rep.swap (h : Rep l o) : Rep ⟨l.prev, l.next⟩ o.reverse :=
  ⟨h.prev, by rw [reverse_reverse]; exact h.next⟩

theorem exists_last (xs : List (Fin nBuf)) :
    ∃ l, none :: xs.map some = l ++ [(xs.reverse.map some).headD none] := by
  rcases xs.eq_nil_or_concat with rfl | ⟨xs, x, rfl⟩
  · exact ⟨[], rfl⟩
  · exact ⟨none :: xs.map some, by simp⟩

theorem nodup_nodes (h : o.Nodup) : (none :: o.map some).Nodup :=
  nodup_cons.mpr ⟨by simp, h.map (Option.some_injective _)⟩

theorem Rep.next_head (h : Rep l o) : l.next none = (o.map some).headD none := h.next.1

theorem Rep.next_mid (h : Rep l (xs ++ i :: ys)) : l.next (some i) = (ys.map some).headD none := by
  have hnext := h.next
  rw [map_append, map_cons, ← cons_append, Cyclic.links_append] at hnext
  exact hnext.2.1

theorem Rep.prev_mid (h : Rep l (xs ++ i :: ys)) :
    l.prev (some i) = (xs.reverse.map some).headD none := by
  have hswap := h.swap
  rw [reverse_append, reverse_cons, append_assoc] at hswap
  exact hswap.next_mid

theorem Rep.prev_next (h : Rep l o) (hall : ∀ i, i ∈ o) (x : Node) : l.prev (l.next x) = x := by
  have hprev := h.prev
  cases x with
  | none =>
    obtain ⟨r, hr⟩ := exists_last o.reverse
    rw [reverse_reverse, ← h.next_head] at hr
    rw [hr, Cyclic.links_append] at hprev
    exact hprev.2.1
  | some i =>
    obtain ⟨xs, ys, rfl⟩ := append_of_mem (hall i)
    obtain ⟨r, hr⟩ := exists_last ys.reverse
    rw [reverse_reverse, ← h.next_mid] at hr
    rw [reverse_append, reverse_cons, append_assoc, map_append,
      ← cons_append, hr, append_assoc, Cyclic.links_append] at hprev
    exact hprev.2.1

theorem Rep.insertHead (h : Rep l o) (ho : (i :: o).Nodup) : Rep (l.insertHead i) (i :: o) := by
  obtain ⟨hi, ho⟩ := nodup_cons.mp ho
  have hmem : some i ∉ none :: o.map some := by simpa using hi
  have hmem' : some i ∉ none :: o.reverse.map some := by simpa using hi
  obtain ⟨r, hr⟩ := exists_last o.reverse
  rw [reverse_reverse, ← h.next_head] at hr
  have hprev := h.prev
  have hnodup := nodup_nodes (nodup_reverse.mpr ho)
  rw [hr] at hprev hnodup hmem'
  have hlast : l.prev (l.next none) = none := (Cyclic.links_append.mp hprev).2.1
  refine ⟨h.next.insert [] (nodup_nodes ho) hmem, ?_⟩
  have hins := hprev.insert r hnodup hmem'
  rw [hlast] at hins
  rw [reverse_cons, map_append, ← cons_append, hr, append_assoc]
  simp only [Links.insertHead, update_of_ne (Option.some_ne_none i).symm]
  exact hins

theorem Rep.unlink (h : Rep l (xs ++ i :: ys)) (ho : (xs ++ i :: ys).Nodup) :
    Rep (l.unlink i) (xs ++ ys) := by
  have hnext := h.next
  have hprev := h.prev
  have hn := nodup_nodes ho
  have hn' := nodup_nodes (nodup_reverse.mpr ho)
  obtain ⟨r, hr⟩ := exists_last xs
  obtain ⟨r', hr'⟩ := exists_last ys.reverse
  rw [← h.prev_mid] at hr
  rw [reverse_reverse, ← h.next_mid] at hr'
  rw [map_append, ← cons_append, hr, append_assoc] at hnext hn
  rw [reverse_append, reverse_cons, append_assoc, map_append,
    ← cons_append, hr', append_assoc] at hprev hn'
  have hne : some i ≠ l.next (some i) := fun heq =>
    (nodup_cons.mp hn'.of_append_right).1 (heq ▸ mem_cons_self)
  refine ⟨?_, ?_⟩
  · rw [map_append, ← cons_append, hr, append_assoc]
    simp only [Links.unlink, update_of_ne hne]
    exact hnext.remove r hn
  · rw [reverse_append, map_append, ← cons_append, hr', append_assoc]
    exact hprev.remove r' hn'

theorem walk_eq {along : Node → Node} (h : Cyclic.Links along (o.map some) none)
    (found : Fin nBuf → Bool) {fuel : ℕ} (hfuel : o.length ≤ fuel) :
    walk along found fuel ((o.map some).headD none) = o.find? found := by
  induction o generalizing fuel with
  | nil => cases fuel <;> rfl
  | cons i o ih =>
    cases fuel with
    | zero => exact absurd hfuel (Nat.not_succ_le_zero _)
    | succ fuel =>
      rw [find?_cons, ← ih h.2 (Nat.le_of_succ_le_succ hfuel), ← h.1]
      cases hi : found i <;> simp [walk, hi]

theorem rep_binit : Rep (binit : Cache P).links (finRange nBuf).reverse := by
  have hempty : Rep ⟨fun _ => none, fun _ => none⟩ [] := ⟨⟨rfl, trivial⟩, rfl, trivial⟩
  suffices H : ∀ (new o : List (Fin nBuf)) (l : Links), (new ++ o).Nodup → Rep l o →
      Rep (new.foldl Links.insertHead l) (new.reverse ++ o) by
    have := H _ [] _ (by simpa using nodup_finRange nBuf) hempty
    rwa [append_nil] at this
  intro new
  induction new with
  | nil => exact fun _ _ _ h => h
  | cons i new ih =>
    intro o l hnodup h
    have hmid := nodup_middle.mpr hnodup
    rw [reverse_cons, append_assoc]
    exact ih (i :: o) _ hmid (h.insertHead hmid.of_append_right)

end Pointers

/-! ### The order of the buffers -/

/-- The buffers that were released, by their last release, the latest first, and then those that
were never released. -/
def Cache.recency (c : Cache P) : List (Fin nBuf) :=
  c.released ++ (finRange nBuf).reverse.filter (· ∉ c.released)

/-- What holds in all states; the list has the buffers `o`. -/
structure Ok (c : Cache P) (o : List (Fin nBuf)) : Prop where
  rep : Rep c.links o
  nodup : o.Nodup
  all : ∀ i, i ∈ o
  refcnt : ∀ i, c.refcnt i = c.refs.countP (·.2 = i)
  order : o.filter (c.refcnt · = 0) = c.recency.filter (c.refcnt · = 0)

variable {c c' : Cache P} {o : List (Fin nBuf)} {i : Fin nBuf} {p : P}

theorem ok_binit : Ok (binit : Cache P) (finRange nBuf).reverse where
  rep := rep_binit
  nodup := nodup_reverse.mpr (nodup_finRange nBuf)
  all i := mem_reverse.mpr (mem_finRange i)
  refcnt _ := rfl
  order := by simp [Cache.recency, binit]

theorem recency_brelse [DecidableEq P] :
    (c.brelse p i).recency = i :: c.recency.filter (· ≠ i) := by
  simp only [Cache.recency, Cache.brelse, filter_append, filter_filter, cons_append]
  congr 2
  refine filter_congr fun j _ => ?_
  by_cases hj : j = i <;> simp [hj]

theorem filter_eq_of_imp {p q : Fin nBuf → Bool} {r : List (Fin nBuf)}
    (h : o.filter p = r.filter p) (himp : ∀ i, q i = true → p i = true) :
    o.filter q = r.filter q := by
  have hq (l : List (Fin nBuf)) : (l.filter p).filter q = l.filter q := by
    rw [filter_filter]
    refine filter_congr fun i _ => ?_
    by_cases hi : q i = true <;> simp [hi, himp]
  rw [← hq o, h, hq]

theorem Ok.got (h : Ok c o) {n : ℕ} (hn : n = c.refcnt i + 1) (hlinks : c'.links = c.links)
    (hrefcnt : c'.refcnt = update c.refcnt i n) (hrefs : c'.refs = (p, i) :: c.refs)
    (hrel : c'.released = c.released) : Ok c' o where
  rep := hlinks ▸ h.rep
  nodup := h.nodup
  all := h.all
  refcnt j := by
    rw [hrefcnt, hrefs, countP_cons, update_apply, hn, h.refcnt, h.refcnt]
    by_cases hj : j = i
    · subst hj; simp
    · simp [hj, Ne.symm hj]
  order := by
    rw [Cache.recency, hrel]
    refine filter_eq_of_imp h.order fun j hj => ?_
    by_cases hij : j = i
    · subst hij; simp [hrefcnt, hn] at hj
    · simpa [hrefcnt, hij] using hj

theorem filter_ne_mid {xs ys : List (Fin nBuf)} (h : (xs ++ i :: ys).Nodup) :
    (xs ++ i :: ys).filter (· ≠ i) = xs ++ ys := by
  have hmem := (nodup_cons.mp (nodup_middle.mp h)).1
  rw [filter_append, filter_cons_of_neg (by simp), ← filter_append, filter_eq_self]
  exact fun j hj => decide_eq_true (ne_of_mem_of_not_mem hj hmem)

theorem Ok.brelse [DecidableEq P] (h : Ok c o) (hp : (p, i) ∈ c.refs) :
    Ok (c.brelse p i) (if c.refcnt i - 1 = 0 then i :: o.filter (· ≠ i) else o) where
  rep := by
    obtain ⟨xs, ys, rfl⟩ := append_of_mem (h.all i)
    dsimp only [Cache.brelse]
    split_ifs
    · rw [filter_ne_mid h.nodup]
      exact (h.rep.unlink h.nodup).insertHead (nodup_middle.mp h.nodup)
    · exact h.rep
  nodup := by
    split_ifs
    · exact nodup_cons.mpr ⟨by simp, h.nodup.filter _⟩
    · exact h.nodup
  all j := by
    split_ifs
    · by_cases hj : j = i <;> simp [hj, h.all]
    · exact h.all j
  refcnt j := by
    dsimp only [Cache.brelse]
    rw [update_apply, countP_erase, h.refcnt, h.refcnt]
    by_cases hj : j = i
    · subst hj; simp [hp]
    · simp [hj, Ne.symm hj]
  order := by
    have hpos : c.refcnt i ≠ 0 := by
      rw [h.refcnt]
      exact (countP_pos_iff.mpr ⟨_, hp, by simp⟩).ne'
    have hi : (c.brelse p i).refcnt i = c.refcnt i - 1 := update_self ..
    -- the others remain in their order
    have hrest : (o.filter (· ≠ i)).filter ((c.brelse p i).refcnt · = 0) =
        (c.recency.filter (· ≠ i)).filter ((c.brelse p i).refcnt · = 0) := by
      simp only [filter_filter]
      refine filter_eq_of_imp h.order fun j hj => ?_
      simp only [Bool.and_eq_true, decide_eq_true_eq] at hj
      simpa [Cache.brelse, hj.2] using hj.1
    rw [recency_brelse]
    split_ifs with hzero
    · rw [filter_cons_of_pos (by simp [hi, hzero]), hrest, filter_cons_of_pos (by simp [hi, hzero])]
    · rw [filter_cons_of_neg (by simp [hi, hzero]), ← hrest, filter_filter]
      refine filter_congr fun j _ => ?_
      by_cases hj : j = i <;> simp [hj, hi, hzero]

theorem Ok.unused_eq (h : Ok c o) :
    c.unused = o.reverse.find? fun i => c.refcnt i = 0 ∧ c.dirty i = false := by
  have hlen : o.reverse.length ≤ nBuf := by
    simpa using h.nodup.length_le_card
  rw [Cache.unused, h.rep.prev.1]
  exact walk_eq h.rep.prev.2 _ hlen

theorem Ok.step [DecidableEq P] (h : Ok c o) {a : Act P} (hs : step c a = some c') :
    ∃ o', Ok c' o' := by
  cases a with
  | flag i dirty =>
    cases hs
    exact ⟨o, h.rep, h.nodup, h.all, h.refcnt, h.order⟩
  | brelse p i =>
    obtain ⟨hp, hs⟩ := Option.ite_none_right_eq_some.mp hs
    cases hs
    exact ⟨_, h.brelse hp⟩
  | bget p dev blockno =>
    simp only [Lru.step, Cache.bget] at hs
    split at hs
    · cases hs
      exact ⟨o, h.got rfl rfl rfl rfl rfl⟩
    · obtain ⟨i, hi, rfl⟩ := Option.map_eq_some_iff.mp hs
      rw [h.unused_eq] at hi
      have hfree := find?_some hi
      simp only [decide_eq_true_eq] at hfree
      exact ⟨o, h.got (by rw [hfree.1]) rfl rfl rfl rfl⟩

/-- After `binit` and any steps, `next` leads from the head through every buffer, once, and back to
the head; `prev` is the inverse of `next`; the buffers without references are in the order of their
last releases, and those that were never released are behind them; and the second loop of `bget`
picks the last clean buffer in this order. -/
theorem lru_list [DecidableEq P] {es : List (Act P)} (hrun : Runs binit es c) :
    ∃ o : List (Fin nBuf), o.Nodup ∧ (∀ i, i ∈ o) ∧
      Cyclic.Links c.links.next (none :: o.map some) none ∧
      (∀ x, c.links.prev (c.links.next x) = x ∧ c.links.next (c.links.prev x) = x) ∧
      o.filter (c.refcnt · = 0) = c.recency.filter (c.refcnt · = 0) ∧
      c.unused = c.recency.reverse.find? fun i => c.refcnt i = 0 ∧ c.dirty i = false := by
  obtain ⟨o, h⟩ : ∃ o, Ok c o := by
    refine hrun.invariant (I := fun c => ∃ o, Ok c o) ⟨_, ok_binit⟩ ?_
    rintro c a c' ⟨o, h⟩ - hs
    exact h.step hs
  have hall' (i : Fin nBuf) : i ∈ o.reverse := mem_reverse.mpr (h.all i)
  have hfind (l : List (Fin nBuf)) :
      (l.reverse.find? fun i => c.refcnt i = 0 ∧ c.dirty i = false) =
        (l.filter (c.refcnt · = 0)).reverse.find? (c.dirty · = false) := by
    rw [← filter_reverse, find?_filter]
    simp only [Bool.decide_and, Bool.decide_eq_true]
  refine ⟨o, h.nodup, h.all, h.rep.next, fun x => ⟨h.rep.prev_next h.all x, ?_⟩, h.order, ?_⟩
  · exact h.rep.swap.prev_next hall' x
  · rw [h.unused_eq, hfind, hfind, h.order]

/-- Two processes get and release the first two buffers. -/
def getAndRelease : List (Act (Fin 2)) :=
  [.bget 0 1 7, .bget 1 1 8, .brelse 1 1, .brelse 0 0]

theorem lru_list_getAndRelease : ∃ c : Cache (Fin 2), Runs binit getAndRelease c ∧
    c.recency.take 3 = [0, 1, 29] ∧
      c.unused = c.recency.reverse.find? fun i => c.refcnt i = 0 ∧ c.dirty i = false := by
  have hexec : (getAndRelease.foldlM (guarded step anyEvent) binit).map (·.recency.take 3) =
      some [0, 1, 29] := by
    decide +kernel
  obtain ⟨c, hc, htake⟩ := Option.map_eq_some_iff.mp hexec
  have hrun := Run.of_foldlM hc
  obtain ⟨o, -, -, -, -, -, hunused⟩ := lru_list hrun
  exact ⟨c, hrun, htake, hunused⟩

end Dave.Bcache.Lru
