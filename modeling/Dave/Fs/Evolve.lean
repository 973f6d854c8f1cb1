import Dave.Fs.Descriptors
import Dave.Fs.Lookup

/-!
# How a directory changes

What happens to an inode number over a run, as far as directories go: a directory is allocated
empty, `dirlink` stores an entry in the first free place or at the end, `sys_unlink` erases an entry
whose name is neither `.` nor `..`, and the inode is freed. A directory that begins with the entries
`.` and `..` therefore keeps them until it is freed.
-/

namespace Dave.Fs

variable {P : Type} {s s' : State P} {ip : Slot} {i : ℕ} {es es' : List Dirent} {name : Str}

def IsDots (name : Str) : Prop := key name = key dotName ∨ key name = key dotdotName

/-- The number of the inode that an entry of the cache stands for. -/
abbrev State.num (s : State P) (ip : Slot) : ℕ := (s.icache ip).inum

/-- The type, on the disk, of the inode that an entry of the cache stands for. -/
abbrev State.typ (s : State P) (ip : Slot) : Short := (s.view.dino (s.num ip)).type

/-- Inode `i` has been allocated, with the type `type` and no contents. -/
structure Born (i : ℕ) (type : Short) (s s' : State P) : Prop where
  dino_of_ne : ∀ x, x ≠ i → s'.view.dino x = s.view.dino x
  bytes_of_ne : ∀ x, x ≠ i → s'.view.bytes x = s.view.bytes x
  dino : s'.view.dino i = { Dinode.zero with type := type }
  dirents : s'.view.dirents i = []
  num : ∀ jp, 0 < (s.icache jp).ref → s'.num jp = s.num jp

theorem Marked.born {i : ℕ} {type : Short} {s₁ : State P} (hm : Marked i type s s₁)
    (hg : Got s₁ i ip s') : Born i type s s' := by
  refine ⟨fun x hx => ?_, fun x hx => ?_, ?_, ?_, fun jp hj => ?_⟩
  · rw [hg.view, hm.dino_of_ne hx]
  · rw [hg.view, hm.bytes_of_ne hx]
  · rw [hg.view, hm.dino_self]
  · refine List.eq_nil_of_length_eq_zero ?_
    rw [View.length_dirents, ← View.length_bytes, hg.view, hm.bytes_self]
    rfl
  · rw [← hm.same.icache] at hj
    by_cases hji : jp = ip
    · subst hji
      rw [State.num, hg.of_ref_pos hj, hm.same.icache]
    · rw [State.num, hg.of_ne hji, hm.same.icache]

/-- The type of inode `i`, and its entries if it is a directory. -/
def State.dir (s : State P) (i : ℕ) : Short × List Dirent :=
  ((s.view.dino i).type, s.view.dirents i)

theorem State.dir_congr (ht : (s'.view.dino i).type = (s.view.dino i).type)
    (hb : s'.view.bytes i = s.view.bytes i) : s'.dir i = s.dir i := by
  rw [State.dir, State.dir, ht, View.dirents_congr hb]

/-- The entries after `dirlink`, which stores an entry in the first free place or at the end. -/
def addTo (es : List Dirent) (name : Str) (inum : ℕ) : List Dirent :=
  splice es (es.findIdx (·.inum = 0)) [⟨BitVec.ofNat 16 inum, key name⟩]

/-- The type of an inode and its entries, before and after a change. -/
inductive DirStep : Short × List Dirent → Short × List Dirent → Prop
  /-- `dirlink` stores an entry -/
  | link (es : List Dirent) (name : Str) (inum : ℕ) (h : lookupFrom name es 0 = none) :
    DirStep (tDir, es) (tDir, addTo es name inum)
  /-- `sys_unlink` zeroes the entry with a name -/
  | unlink (es : List Dirent) (name : Str) (i k : ℕ) (hdots : ¬ IsDots name)
    (h : lookupFrom name es 0 = some (i, deSize * k)) :
    DirStep (tDir, es) (tDir, splice es k [.zero])
  /-- a file or a device is written -/
  | file (t : Short) (es es' : List Dirent) (h : t ≠ tDir) : DirStep (t, es) (t, es')
  /-- `ialloc` -/
  | alloc (t : Short) (es : List Dirent) : DirStep (0, es) (t, [])
  /-- `iput` frees the inode -/
  | free (t : Short) (es es' : List Dirent) : DirStep (t, es) (0, es')

/-- The first two entries of directory `i` are `.`, for the directory itself, and `..`. -/
def HasDots (i : ℕ) (es : List Dirent) : Prop :=
  ∃ e e' rest, es = e :: e' :: rest ∧ e.inum ≠ 0 ∧ e.inum.toNat = i ∧ e.name = key dotName ∧
    e'.inum ≠ 0 ∧ e'.name = key dotdotName

theorem hasDots_cons {e e' : Dirent} {rest : List Dirent} :
    HasDots i (e :: e' :: rest) ↔ e.inum ≠ 0 ∧ e.inum.toNat = i ∧ e.name = key dotName ∧
      e'.inum ≠ 0 ∧ e'.name = key dotdotName := by
  refine ⟨?_, fun h => ⟨e, e', rest, rfl, h⟩⟩
  rintro ⟨x, x', rest', heq, h⟩
  obtain ⟨rfl, rfl, -⟩ : e = x ∧ e' = x' ∧ rest = rest' := by simpa using heq
  exact h

theorem HasDots.two_le_length (h : HasDots i es) : 2 ≤ es.length := by
  obtain ⟨e, e', rest, rfl, -⟩ := h
  simp

instance (i : ℕ) : (es : List Dirent) → Decidable (HasDots i es)
  | [] => .isFalse fun h => absurd h.two_le_length (by simp)
  | [_] => .isFalse fun h => absurd h.two_le_length (by simp)
  | _ :: _ :: _ => decidable_of_iff _ hasDots_cons.symm

theorem splice_of_two_le {α : Type} {x y z : α} {l : List α} {j : ℕ} (hj : 2 ≤ j) :
    splice (x :: y :: l) j [z] = x :: y :: splice l (j - 2) [z] := by
  obtain ⟨k, rfl⟩ := Nat.exists_eq_add_of_le' hj
  have hdrop : k + 2 + [z].length = k + [z].length + 2 := by omega
  simp only [splice, hdrop, Nat.add_sub_cancel, List.take_succ_cons, List.drop_succ_cons,
    List.cons_append]

theorem HasDots.splice {k : ℕ} {de : Dirent} (h : HasDots i es) (hk : 2 ≤ k) :
    HasDots i (splice es k [de]) := by
  obtain ⟨e, e', rest, rfl, hrest⟩ := h
  rw [splice_of_two_le hk]
  exact ⟨e, e', _, rfl, hrest⟩

theorem HasDots.two_le_findIdx (h : HasDots i es) : 2 ≤ es.findIdx (·.inum = 0) := by
  obtain ⟨e, e', rest, rfl, he, -, -, he', -⟩ := h
  rw [List.findIdx_cons, decide_eq_false he, List.findIdx_cons, decide_eq_false he']
  exact Nat.le_add_left 2 _

theorem HasDots.two_le_of_lookup (h : HasDots i es) (hdots : ¬ IsDots name) {j k : ℕ}
    (hlook : lookupFrom name es 0 = some (j, deSize * k)) : 2 ≤ k := by
  obtain ⟨e, e', rest, rfl, -, -, hname, -, hname'⟩ := h
  obtain ⟨k', x, hx, hk, -, hkey, -⟩ := exists_of_lookupFrom hlook
  have hkk : k = k' := by
    simp only [deSize] at hk
    omega
  subst hkk
  by_contra hlt
  refine hdots ?_
  rw [IsDots, ← hkey]
  have hcases : k = 0 ∨ k = 1 := by omega
  rcases hcases with rfl | rfl
  · obtain rfl : e = x := by simpa using hx
    exact .inl (by rw [hname, key_key])
  · obtain rfl : e' = x := by simpa using hx
    exact .inr (by rw [hname', key_key])

theorem HasDots.step (h : HasDots i es) (hs : DirStep (tDir, es) (tDir, es')) : HasDots i es' := by
  generalize hx : (tDir, es) = x at hs
  generalize hy : (tDir, es') = y at hs
  cases hs with
  | link es₀ name inum hnone =>
    obtain ⟨-, rfl⟩ := Prod.mk.inj hx
    obtain ⟨-, rfl⟩ := Prod.mk.inj hy
    exact h.splice h.two_le_findIdx
  | unlink es₀ name j k hdots hlook =>
    obtain ⟨-, rfl⟩ := Prod.mk.inj hx
    obtain ⟨-, rfl⟩ := Prod.mk.inj hy
    exact h.splice (h.two_le_of_lookup hdots hlook)
  | file t es₀ es₁ ht => exact absurd (Prod.mk.inj hx).1.symm ht
  | alloc t es₀ => exact absurd (Prod.mk.inj hx).1 (by decide)
  | free t es₀ es₁ => exact absurd (Prod.mk.inj hy).1 (by decide)

end Dave.Fs
