import Dave.Fs.Names

/-!
# `sys_unlink` keeps the invariant of all processes

`sys_unlink` locks a directory, then the inode of one of its entries, and after the entry has been
erased takes the lock of the directory once more, in `iput`, with the inode still locked.
-/

namespace Dave.Fs

open Ghost Function Interleave

variable {P : Type} [DecidableEq P] [Fintype P] {κ : Scope} {old : History} {me : P}
  {ip jp dp : Slot} {g : Ghost} {name : Str} {sn sn' : Snap}

theorem endWith_triple (r : ℤ) : KTriple κ me g (endWith r) (fun _ g' => g' = g) :=
  .seq g (record_triple _) fun _ => .ret rfl

/-- Both inodes are locked, and one is that of an entry that the other has had or will have. -/
def Ghost.paired (g : Ghost) (dp ip : Slot) (sn sn' : Snap) : Ghost :=
  ((g.take ip).setLock dp (some (some sn))).setLock ip (some (some sn'))

theorem Ghost.setLock_comm (g : Ghost) (hne : ip ≠ dp) (o o' : Option (Option Snap)) :
    (g.setLock dp o).setLock ip o' = (g.setLock ip o').setLock dp o := by
  simp only [setLock]
  rw [update_comm hne]

theorem Ghost.paired_setLock (hne : ip ≠ dp) (sn₁ : Snap) :
    (g.paired dp ip sn sn').setLock dp (some (some sn₁)) = g.paired dp ip sn₁ sn' := by
  rw [paired, ← setLock_comm _ hne, setLock_setLock, paired]

theorem Ghost.paired_locks_dp (hne : ip ≠ dp) :
    (g.paired dp ip sn sn').locks dp = some (some sn) := by
  rw [paired, setLock_locks, update_of_ne (Ne.symm hne), setLock_locks, update_self]

theorem dirlookup_unlink (hfree : g.Free) :
    KTriple κ me (g.setLock dp (some (some sn))) (.lift (dirlookup dp name)) (fun r g' =>
      match r with
      | none => g' = g.setLock dp (some (some sn))
      | some (ip, off) => g' = (g.take ip).setLock dp (some (some sn)) ∧ sn.d.type = tDir ∧
        ∃ k i, off = deSize * k ∧ k < (entriesOf sn.bytes).length ∧
          lookupFrom name (entriesOf sn.bytes) 0 = some (i, off)) := by
  have hl : (g.setLock dp (some (some sn))).locks dp = some (some sn) := update_self ..
  refine .lift fun s gs hG hg => (Global.dirlookup_wp hG hg hfree.active hl name).mono
    fun r s' hr' => ?_
  obtain ⟨hdir, hr'⟩ := hr'
  split at hr'
  · obtain ⟨rfl, -⟩ := hr'
    exact ⟨_, rfl, by rwa [← hg, update_eq_self]⟩
  · rename_i ip off
    obtain ⟨hlook, hG'⟩ := hr'
    obtain ⟨k, e, hk, hoff, -⟩ := exists_of_lookupFrom hlook
    exact ⟨_, ⟨rfl, hdir, k, s'.num ip, by omega, (List.getElem?_eq_some_iff.mp hk).1, hlook⟩, hG'⟩

theorem ilock_paired (hfree : g.Free) :
    KTriple κ me ((g.take ip).setLock dp (some (some sn))) (ilock ip .ilock)
      (fun _ g' => ip ≠ dp ∧ ∃ sn', g' = g.paired dp ip sn sn') := by
  refine (ilock_triple (g := (g.take ip).setLock dp (some (some sn))) hfree.active
    (.inl (g.take_refs_pos ip))).mono ?_
  rintro _ _ ⟨hl, sn', -, -, -, rfl⟩
  refine ⟨?_, sn', rfl⟩
  rintro rfl
  simp at hl

theorem isFull_triple (hl : g.locks ip = some (some sn)) :
    KTriple κ me g (.lift (isFull ip)) (fun _ g' => g' = g) := by
  refine .lift fun s gs hG hg => ?_
  have hG' : Global κ _ s gs := hG
  have hl' : (gs me).locks ip = some (some sn) := by rw [hg, hl]
  rw [wp_of_ok (isFull_eq fun hdir => hG'.base.openDir hl' (hG'.base.snap_d hl' ▸ hdir))]
  exact ⟨g, rfl, by rwa [← hg, update_eq_self]⟩

variable {k i : ℕ}

/-- The entry is erased while both inodes are locked. -/
theorem eraseEntry_triple (hfree : g.Free) (hne : ip ≠ dp) (hdir : sn.d.type = tDir)
    (hk : k < (entriesOf sn.bytes).length) (hdots : ¬ IsDots name)
    (hlook : lookupFrom name (entriesOf sn.bytes) 0 = some (i, deSize * k)) :
    KTriple κ me (g.paired dp ip sn sn') (.lift (eraseEntry dp ip (deSize * k)))
      (fun _ g' => ∃ sn₁, g' = g.paired dp ip sn₁ sn') := by
  have hl : (g.paired dp ip sn sn').locks dp = some (some sn) := paired_locks_dp hne
  refine .lift fun s gs hG hg => ?_
  have hG' : Global κ _ s gs := hG
  have hbase := hG'.base
  have hl' : (gs me).locks dp = some (some sn) := by rw [hg, hl]
  have hsnap := (hbase.loc me).snap dp sn hl'
  have hk' : k < (s.view.dirents (s.icache dp).inum).length := by
    rwa [View.dirents_eq, hsnap.bytes]
  refine (eraseEntry_spec (hbase.openDir hl' hdir) hk').mono ?_
  rintro _ s' ⟨s₁, he, hs'⟩
  have hpos : 0 < κ.sb.ninodes :=
    (Nat.zero_le _).trans_lt (hG'.sb_eq ▸ hbase.store.disk.ordered.root)
  obtain ⟨hG₁, -⟩ := hG'.entered hg hfree.active hl hdir he hpos (.unlink _ name i k hdots hlook)
  rw [paired_setLock hne] at hG₁
  split_ifs at hs' with hip
  · have hself := update_self me (g.paired dp ip (s₁.snap dp) sn') gs
    have hG₂ := hG₁.fieldsSet hself hfree.active (paired_locks_dp hne) (by intro _; rfl) hs'
    rw [update_idem, paired_setLock hne] at hG₂
    exact ⟨_, ⟨_, rfl⟩, hG₂⟩
  · rw [hs']
    exact ⟨_, ⟨_, rfl⟩, hG₁⟩

theorem Ghost.paired_up (hfree : g.Free) (hr : 0 < g.refs dp) (hne : ip ≠ dp) :
    ((g.paired dp ip sn sn').quiet.setLock dp none).drop dp =
      ((g.drop dp).take ip).setLock ip (some (some sn')) := by
  have hquiet : (g.paired dp ip sn sn').quiet =
      ((g.take ip).setLock dp (some (some sn))).setLock ip (some (some sn')) :=
    congrArg (fun x : Ghost => (x.setLock dp (some (some sn))).setLock ip (some (some sn')))
      (hfree.take ip).quiet.quiet_eq
  rw [hquiet, ← setLock_comm _ hne, setLock_setLock,
    setLock_of_eq (g := g.take ip) (hfree.locks dp)]
  change ((g.take ip).drop dp).setLock ip _ = _
  rw [drop_take_of_pos hr]

theorem iunlockput_free (hfree : g.Free) (hr : 0 < g.refs ip) :
    KTriple κ me (g.setLock ip (some (some sn))) (iunlockput me ip)
      (fun _ g' => g' = g.drop ip) := by
  refine (iunlockput_quiet (g := g.setLock ip (some (some sn))) hfree.active
    (fun _ => hfree.quiet.fresh) (by simp) hr).mono fun _ g' hg' => ?_
  rw [hg', hfree.unlock]

theorem iunlockput_full (hfree : g.Free) (hne : ip ≠ dp) :
    KTriple κ me (g.paired dp ip sn sn') (iunlockput me ip)
      (fun _ g' => g' = g.setLock dp (some (some sn))) := by
  refine (iunlockput_quiet (g := g.paired dp ip sn sn') hfree.active
    (fun _ => hfree.quiet.fresh) (by simp [paired]) (g.take_refs_pos ip)).mono fun _ g' hg' => ?_
  have hquiet : (g.paired dp ip sn sn').quiet = g.paired dp ip sn sn' :=
    (((hfree.take ip).quiet.setLock dp _).setLock ip _).quiet_eq
  have hlock : ((g.take ip).setLock dp (some (some sn))).locks ip = none := by
    rw [setLock_locks, update_of_ne hne]
    exact hfree.locks ip
  rw [hg', hquiet, paired, setLock_setLock, setLock_of_eq hlock]
  exact drop_take (g.setLock dp (some (some sn))) ip

theorem unlinkBad_triple (hfree : g.Free) (hr : 0 < g.refs dp) :
    KTriple κ me (g.setLock dp (some (some sn))) (unlinkBad me dp) (fun _ g' => g' = g.drop dp) :=
  .seq _ (iunlockput_free hfree hr) fun _ => endWith_triple _

theorem unlinkEntry_triple (hfree : g.Free) (hr : 0 < g.refs dp) (hne : ip ≠ dp)
    (hdir : sn.d.type = tDir) (hk : k < (entriesOf sn.bytes).length) (hdots : ¬ IsDots name)
    (hlook : lookupFrom name (entriesOf sn.bytes) 0 = some (i, deSize * k)) :
    KTriple κ me (g.paired dp ip sn sn') (do
      .lift (eraseEntry dp ip (deSize * k))
      iunlockput me dp
      .lift do
        modifyInode ip fun d => { d with nlink := d.nlink - 1 }
        iupdate ip
      iunlockput me ip
      endWith 0) (fun _ g' => g' = g.drop dp) := by
  refine (eraseEntry_triple hfree hne hdir hk hdots hlook).bind ?_
  rintro _ _ ⟨sn₁, rfl⟩
  refine .seq _ (iunlockput_quiet (g := g.paired dp ip sn₁ sn') hfree.active
    (fun _ => hfree.quiet.fresh) (by simp [paired_locks_dp hne]) (take_refs_mono hr ip))
    fun _ => ?_
  rw [paired_up hfree hr hne]
  have hfree' := (hfree.drop dp).take ip
  refine .seq _ (setFields_triple (g := ((g.drop dp).take ip).setLock ip (some (some sn')))
    hfree'.active (update_self ..) (fun _ => rfl) (fun _ => rfl) fun _ => rfl) fun _ => ?_
  rw [setLock_setLock]
  refine .seq _ (iunlockput_free hfree' (take_refs_pos _ ip)) fun _ => ?_
  rw [drop_take]
  exact endWith_triple _

/-- `sys_unlink` gives up all that it has taken. -/
theorem sysUnlink_triple (path : Option Str) :
    KTriple κ me .begin (sysUnlink me path) (fun _ g' => g' = .begin) := by
  cases path with
  | none => exact .ret rfl
  | some path =>
    refine .seq _ (record_triple _) fun _ => ?_
    refine (nameiparent_triple path begin_free).bind ?_
    rintro (_ | ⟨dp, name⟩) g' hg'
    · exact hg' ▸ endWith_triple _
    subst hg'
    have hfree := begin_free.take dp
    have hr := begin.take_refs_pos dp
    have hdrop := begin.drop_take dp
    have hbad (sn : Snap) : KTriple κ me ((begin.take dp).setLock dp (some (some sn)))
        (unlinkBad me dp) (fun _ g' => g' = .begin) :=
      (unlinkBad_triple hfree hr).mono fun _ _ hg => hg.trans hdrop
    refine (ilock_triple hfree.active (.inl hr)).bind ?_
    rintro _ _ ⟨-, sn, -, -, -, rfl⟩
    split_ifs with hdots
    · exact hbad sn
    have hdots' : ¬ IsDots name := by
      rwa [IsDots, ← namecmp_eq_zero_iff, ← namecmp_eq_zero_iff]
    refine (dirlookup_unlink hfree).bind ?_
    rintro (_ | ⟨ip, off⟩) g' hg'
    · exact hg' ▸ hbad sn
    obtain ⟨rfl, hdir, k, i, rfl, hk, hlook⟩ := hg'
    refine (ilock_paired hfree).bind ?_
    rintro _ _ ⟨hne, sn', rfl⟩
    refine .seq _ (read_triple _) fun d => ?_
    split_ifs with hnlink
    · exact .fail Panic.noConfusion
    have hl : ((begin.take dp).paired dp ip sn sn').locks ip = some (some sn') := update_self ..
    refine .seq _ (isFull_triple hl) fun full => ?_
    cases full with
    | true => exact .seq _ (iunlockput_full hfree hne) fun _ => hbad sn
    | false =>
      exact (unlinkEntry_triple hfree hr hne hdir hk hdots' hlook).mono fun _ _ hg => hg.trans hdrop

end Dave.Fs
