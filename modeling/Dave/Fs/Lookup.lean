import Dave.Fs.Cache

/-!
# The directory operations of the system calls

What `dirlookup`, the tests of `sys_unlink` and the erasure of an entry do to a directory that has
been locked, in terms of its list of entries.
-/

namespace Dave.Fs

variable {P : Type} {E : Panic → Prop} {s s' : State P} {ip dp : Slot}

/-- The entries in the bytes of a directory. -/
def entriesOf (bs : List Byte) : List Dirent :=
  (List.range (bs.length / deSize)).map fun k => .ofBytes ((bs.drop (deSize * k)).take deSize)

theorem View.dirents_eq (v : View) (i : ℕ) : v.dirents i = entriesOf (v.bytes i) := by
  rw [View.dirents, entriesOf, View.length_bytes]
  rfl

/-- `dirlookup` finds the first entry with the name, and returns its inode. -/
theorem dirlookup_spec (h : OpenDir s dp) (hdev : (s.icache dp).dev = rootDev) (name : Str)
    (hE : (∀ jp, 0 < (s.icache jp).ref) → E .igetNoInodes) :
    Wp E (dirlookup dp name) (fun r s' =>
      match lookupFrom name (s.view.dirents (s.icache dp).inum) 0 with
      | none => r = none ∧ s' = s
      | some (i, off) => ∃ ip, r = some (ip, off) ∧ Got s i ip s') s := by
  have hfuel := h.length_le_size.trans (Nat.le_add_right (s.icache dp).d.size.toNat 0)
  have hloop := dirlookupLoop_eq h name hfuel
  rw [Nat.mul_zero, List.drop_zero] at hloop
  simp only [dirlookup, wp_bind, wp_get]
  rw [if_neg (not_not.mpr h.type_eq), wp_bind, wp_of_ok hloop]
  cases hlook : lookupFrom name (s.view.dirents (s.icache dp).inum) 0 with
  | none => exact ⟨rfl, rfl⟩
  | some r =>
    obtain ⟨i, off⟩ := r
    simp only [hdev, wp_bind, wp_pure]
    exact (iget_spec i hE).mono fun ip s' hgot => ⟨ip, rfl, hgot⟩

theorem isFull_eq (h : (s.icache ip).d.type = tDir → OpenDir s ip) :
    isFull ip s = .ok (decide ((s.icache ip).d.type = tDir) &&
      (s.view.dirents (s.icache ip).inum |>.drop 2).any (·.inum ≠ 0), s) := by
  refine eq_ok_of_wp ?_
  simp only [isFull, wp_bind, wp_get]
  split_ifs with hdir
  · rw [wp_bind, wp_of_ok (isdirempty_eq (h hdir)), wp_pure, List.not_all_eq_any_not]
    simp [hdir]
  · exact ⟨by rw [decide_eq_false hdir, Bool.false_and], rfl⟩

/-- The entry is zeroed, and the directory has a link less if it was that of a directory. -/
theorem eraseEntry_spec (h : OpenDir s dp) {k : ℕ}
    (hk : k < (s.view.dirents (s.icache dp).inum).length) :
    Wp E (eraseEntry dp ip (deSize * k)) (fun _ s' => ∃ s₁, Entered dp s s₁ k .zero ∧
      if (s.icache ip).d.type = tDir then
        FieldsSet dp (fun d => { d with nlink := d.nlink - 1 }) s₁ s'
      else s' = s₁) s := by
  have hfit : deSize * (k + 1) ≤ maxFile * bSize := by
    have := h.size_le
    rw [← h.length] at this
    exact (Nat.mul_le_mul_left deSize hk).trans this
  rw [eraseEntry, ← Dirent.toBytes_zero, wp_bind]
  have hname : Dirent.zero.name.length = dirSiz := by decide
  refine (writeDirent_spec h hname hk.le fun heq => absurd heq hk.ne).mono fun r s₁ hpost => ?_
  rw [if_pos hfit] at hpost
  obtain ⟨rfl, hent⟩ := hpost
  have htype : (s₁.icache ip).d.type = (s.icache ip).d.type := by
    by_cases hip : ip = dp
    · rw [hip, hent.openDir.type_eq, h.type_eq]
    · rw [hent.touch.of_ne hip]
  simp only [ne_eq, not_true_eq_false, if_false, wp_bind, wp_get, htype]
  split_ifs with hdir
  · refine (setFields_spec (f := fun d => { d with nlink := d.nlink - 1 }) hent.openDir.disk
      hent.openDir.loaded (fun _ => rfl) (fun _ => rfl) fun _ => rfl).mono fun _ s' hset => ?_
    exact ⟨s₁, hent, hset⟩
  · exact ⟨s₁, hent, rfl⟩

end Dave.Fs
