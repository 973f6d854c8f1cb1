import Dave.Fs.Paths

/-!
# A directory is a finite map

A directory is used through `dirlookup` and `dirlink` and through the erasure of entries in
`sys_unlink`. It stands for a map from names to inode numbers: no two entries in use have the same
name, `dirlink` adds a binding unless there is one, and an erasure removes one. Names are compared
by the `DIRSIZ` bytes that an entry has for them.

`dirlink` finds out that a name is present by referring to its inode and putting it back, which
takes the lock of the inode. If the name is that of the directory itself, the caller holds this
lock.
-/

namespace Dave.Fs

open List Function Prog

variable {P : Type} {s s' : State P} {dp ip : Slot} {es : List Dirent} {name name' : Str}
  {i k inum : ℕ} {m : List Byte → Option ℕ}

/-! ### Entries -/

/-- What an entry says about a name. -/
def Dirent.binds (name : Str) (e : Dirent) : Option ℕ :=
  if e.inum ≠ 0 ∧ key e.name = key name then some e.inum.toNat else none

/-- The inode that a list of entries has for a name. -/
def bound (es : List Dirent) (name : Str) : Option ℕ := es.findSome? (Dirent.binds name)

theorem map_lookupFrom (name : Str) (es : List Dirent) (off : ℕ) :
    (lookupFrom name es off).map Prod.fst = bound es name := by
  induction es generalizing off with
  | nil => rfl
  | cons e es ih =>
    rw [lookupFrom, bound, findSome?_cons, Dirent.binds]
    have hiff : (e.inum ≠ 0 ∧ namecmp name e.name = 0) ↔ (e.inum ≠ 0 ∧ key e.name = key name) := by
      rw [namecmp_eq_zero_iff, eq_comm]
    by_cases h : e.inum ≠ 0 ∧ key e.name = key name
    · rw [if_pos (hiff.mpr h), if_pos h]
      rfl
    · rw [if_neg (mt hiff.mp h), if_neg h]
      exact ih _

variable {e : Dirent}

theorem Dirent.binds_eq_none_of_free (h : e.inum = 0) : e.binds name = none :=
  if_neg fun hb => hb.1 h

theorem bound_eq_none_iff :
    bound es name = none ↔ ∀ e ∈ es, e.inum ≠ 0 → key e.name ≠ key name := by
  rw [bound, findSome?_eq_none_iff]
  refine forall₂_congr fun e _ => ?_
  rw [Dirent.binds, ite_eq_right_iff]
  simp

variable {x : Dirent}

theorem bound_splice (hx : x.binds name = none)
    (hold : ∀ e, es[k]? = some e → e.binds name = none) :
    bound (splice es k [x]) name = bound es name := by
  have hes : es = es.take k ++ (es[k]?.toList ++ es.drop (k + 1)) := by
    rw [← append_assoc, ← take_add_one, take_append_drop]
  have hmid : es[k]?.toList.findSome? (Dirent.binds name) = none := by
    cases he : es[k]? with
    | none => rfl
    | some e => simp [hold e he]
  conv_rhs => rw [hes]
  rw [splice, bound, bound, append_assoc, findSome?_append, findSome?_append,
    findSome?_append, findSome?_append, hmid]
  simp [hx]

theorem of_getElem?_splice {j : ℕ} (hk : k ≤ es.length) (h : (splice es k [x])[j]? = some e) :
    j = k ∧ e = x ∨ j ≠ k ∧ es[j]? = some e := by
  rw [getElem?_splice hk, length_singleton] at h
  split_ifs at h with hjk
  · have hj : j = k := by omega
    subst hj
    rw [Nat.sub_self] at h
    exact .inl ⟨rfl, (Option.some.inj h).symm⟩
  · exact .inr ⟨by omega, h⟩

theorem bound_link_self (hnone : bound es name = none) (hpos : 0 < inum) (hlt : inum < 65536)
    (k : ℕ) : bound (splice es k [⟨BitVec.ofNat 16 inum, key name⟩]) name = some inum := by
  have hnum : (BitVec.ofNat 16 inum).toNat = inum := by
    rw [BitVec.toNat_ofNat, Nat.mod_eq_of_lt hlt]
  have hne : BitVec.ofNat 16 inum ≠ 0 := fun h0 => by
    rw [h0] at hnum
    exact hpos.ne hnum
  have hbinds : Dirent.binds name ⟨BitVec.ofNat 16 inum, key name⟩ = some inum := by
    rw [Dirent.binds, if_pos ⟨hne, key_key name⟩, hnum]
  have htake : (es.take k).findSome? (Dirent.binds name) = none :=
    findSome?_eq_none_iff.mpr fun e he =>
      findSome?_eq_none_iff.mp hnone e (mem_of_mem_take he)
  rw [bound, splice, append_assoc, findSome?_append, htake]
  simp [hbinds]

theorem bound_link_of_ne (hkey : key x.name ≠ key name) :
    bound (splice es (es.findIdx (·.inum = 0)) [x]) name = bound es name := by
  refine bound_splice (if_neg fun hb => hkey hb.2) fun e he => ?_
  obtain ⟨hlt, rfl⟩ := List.getElem?_eq_some_iff.mp he
  refine Dirent.binds_eq_none_of_free ?_
  simpa using List.findIdx_getElem (w := hlt)

theorem bound_congr (h : key name' = key name) : bound es name' = bound es name := by
  have hbinds : Dirent.binds name' = Dirent.binds name := by
    funext e
    rw [Dirent.binds, Dirent.binds, h]
  rw [bound, bound, hbinds]

/-- No two entries in use have the same name. -/
def Distinct (es : List Dirent) : Prop :=
  ∀ ⦃j k : ℕ⦄ ⦃e e' : Dirent⦄, es[j]? = some e → es[k]? = some e' → e.inum ≠ 0 → e'.inum ≠ 0 →
    key e.name = key e'.name → j = k

/-- A list of entries stands for the map `m`. -/
structure Models (es : List Dirent) (m : List Byte → Option ℕ) : Prop where
  distinct : Distinct es
  bound_eq : ∀ name, bound es name = m (key name)

theorem models_nil : Models [] fun _ => none :=
  ⟨fun _ _ _ _ h => by simp at h, fun _ => rfl⟩

namespace Models

theorem link (h : Models es m) (hnone : m (key name) = none) (hpos : 0 < inum)
    (hlt : inum < 65536) :
    Models (splice es (es.findIdx (·.inum = 0)) [⟨BitVec.ofNat 16 inum, key name⟩])
      (update m (key name) (some inum)) := by
  have hle : es.findIdx (·.inum = 0) ≤ es.length := findIdx_le_length
  have habsent := bound_eq_none_iff.mp ((h.bound_eq name).trans hnone)
  constructor
  · intro j k e e' hj hk he he' hkey
    -- an old entry does not have the name of the new one
    have hold (e : Dirent) {j : ℕ} (hj : es[j]? = some e) (he : e.inum ≠ 0) :
        key e.name ≠ key (key name) := by
      rw [key_key]
      exact habsent e (mem_of_getElem? hj) he
    rcases of_getElem?_splice hle hj with ⟨rfl, rfl⟩ | ⟨-, hj⟩
    · rcases of_getElem?_splice hle hk with ⟨rfl, -⟩ | ⟨-, hk⟩
      · rfl
      · exact absurd hkey.symm (hold e' hk he')
    · rcases of_getElem?_splice hle hk with ⟨rfl, rfl⟩ | ⟨-, hk⟩
      · exact absurd hkey (hold e hj he)
      · exact h.distinct hj hk he he' hkey
  · intro name'
    by_cases hkey : key name' = key name
    · rw [hkey, update_self, bound_congr hkey]
      exact bound_link_self ((h.bound_eq name).trans hnone) hpos hlt _
    · rw [update_of_ne hkey, ← h.bound_eq]
      refine bound_link_of_ne fun hk => hkey ?_
      rw [← hk, key_key]

theorem erase (h : Models es m) (he : es[k]? = some e) (hne : e.inum ≠ 0)
    (hkey : key e.name = key name) :
    Models (splice es k [.zero]) (update m (key name) none) := by
  have hle : k ≤ es.length := (List.getElem?_eq_some_iff.mp he).1.le
  have hzero : Dirent.zero.inum = 0 := rfl
  constructor
  · intro j l e₁ e₂ hj hl h₁ h₂ heq
    rcases of_getElem?_splice hle hj with ⟨-, rfl⟩ | ⟨-, hj⟩
    · exact absurd hzero h₁
    · rcases of_getElem?_splice hle hl with ⟨-, rfl⟩ | ⟨-, hl⟩
      · exact absurd hzero h₂
      · exact h.distinct hj hl h₁ h₂ heq
  · intro name'
    by_cases hk : key name' = key name
    · rw [hk, update_self, bound_eq_none_iff]
      intro e' he' hne' hkey'
      obtain ⟨j, hj⟩ := getElem?_of_mem he'
      rcases of_getElem?_splice hle hj with ⟨-, rfl⟩ | ⟨hjk, hj⟩
      · exact absurd hzero hne'
      · exact hjk (h.distinct hj he hne' hne (hkey'.trans (hk.trans hkey.symm)))
    · rw [update_of_ne hk, ← h.bound_eq]
      refine bound_splice (Dirent.binds_eq_none_of_free hzero) fun e' he' => ?_
      obtain rfl := Option.some.inj (he.symm.trans he')
      exact if_neg fun hb => hk (hb.2.symm.trans hkey)

end Models

/-! ### The calls -/

/-- A directory that a process has locked: inode `i`, as entry `dp` of the inode cache. -/
structure DirAt (s : State P) (dp : Slot) (i : ℕ) : Prop extends OpenDir s dp where
  inum_eq : (s.icache dp).inum = i
  dev_eq : (s.icache dp).dev = rootDev

/-- The panics of `dirlink`: the inode cache is full, or there is no free place in the directory and
the disk is full or the directory is as long as a file can be. -/
def DirlinkStop (s : State P) (i : ℕ) (e : Stop Panic Slot) : Prop :=
  e = .panic .igetNoInodes ∧ (∀ jp, 0 < (s.icache jp).ref) ∨
  (∀ e ∈ s.view.dirents i, e.inum ≠ 0) ∧ (e = .panic .outOfBlocks ∧ s.view.free s.sb < 2 ∨
    e = .panic .dirlink ∧ maxFile * bSize ≤ (s.view.dino i).size.toNat)

variable {me : P} {F : Stop Panic Slot → Prop} {E : Panic → Prop}

theorem DirAt.dirlookup (h : DirAt s dp i) (name : Str)
    (hE : (∀ jp, 0 < (s.icache jp).ref) → E .igetNoInodes) :
    Wp E (Fs.dirlookup dp name) (fun r s' =>
      match lookupFrom name (s.view.dirents i) 0 with
      | none => r = none ∧ s' = s
      | some (j, off) => ∃ ip, r = some (ip, off) ∧ Got s j ip s') s := by
  have hspec := dirlookup_spec h.toOpenDir h.dev_eq name hE
  rwa [h.inum_eq] at hspec

/-- `dirlink` adds an entry if there is none with the name. If there is one, it takes the lock of
its inode. -/
theorem DirAt.dirlink (h : DirAt s dp i) (me : P) (name : Str) (inum : ℕ)
    (hF : ∀ e, DirlinkStop s i e → F e)
    (hwait : ∀ jp, (s.icache jp).lock ≠ none →
      (s.icache jp).ref = 0 ∨ bound (s.view.dirents i) name = some (s.icache jp).inum →
        F (.wait jp)) :
    Wpx me F (Fs.dirlink dp name inum) (fun r s' =>
      if bound (s.view.dirents i) name = none then
        r = true ∧ Entered dp s s' ((s.view.dirents i).findIdx (·.inum = 0))
          ⟨BitVec.ofNat 16 inum, key name⟩
      else r = false ∧ s'.view = s.view) s := by
  have hbound := map_lookupFrom name (s.view.dirents i) 0
  rw [Fs.dirlink, wpx_bind, wpx_lift]
  refine (h.dirlookup name fun hall => hF _ (.inl ⟨rfl, hall⟩)).mono fun r s₁ hr => ?_
  cases hlook : lookupFrom name (s.view.dirents i) 0 with
  | none =>
    rw [hlook] at hr hbound
    obtain ⟨rfl, rfl⟩ := hr
    simp only [wpx_bind, wpx_lift, pure_eq_ret, wpx_ret]
    have hspec := addEntry_spec (E := fun e => F (.panic e)) h.toOpenDir name inum
    rw [h.inum_eq, h.loaded.copy, h.inum_eq] at hspec
    refine (hspec (fun hall hfew => hF _ (.inr ⟨hall, .inl ⟨rfl, hfew⟩⟩)) fun hall hlong =>
      hF _ (.inr ⟨hall, .inr ⟨rfl, hlong⟩⟩)).mono fun _ s' hs' => ?_
    rw [if_pos (hbound.symm.trans (Option.map_none _))]
    exact ⟨trivial, hs'⟩
  | some q =>
    obtain ⟨j, off⟩ := q
    rw [hlook] at hr hbound
    obtain ⟨jp, rfl, hgot⟩ := hr
    have hne : bound (s.view.dirents i) name ≠ none := fun hnone => by simp [hnone] at hbound
    rw [wpx_bind]
    by_cases hlock : (s₁.icache jp).lock = none
    · -- the entry has another reference or has not been read, so that nothing is freed
      refine (wpx_iput hlock fun hvalid _ hone => ?_).mono fun _ s₂ hs₂ => ?_
      · cases hgot with
        | hit hpos =>
          simp only [State.setInode_icache, update_self] at hone
          omega
        | miss => simp at hvalid
      · rw [pure_eq_ret, wpx_ret, if_neg hne, hs₂]
        exact ⟨rfl, hgot.view⟩
    · obtain ⟨q, hq⟩ := Option.ne_none_iff_exists'.mp hlock
      simp only [iput, wpx_bind, wpx_lift, wp_modify]
      refine (wpx_acq_of_some (q := q) hq).mpr (hwait jp (hgot.lock ▸ hlock) ?_)
      cases hgot with
      | hit hpos hj => exact .inr (by rw [← hbound, hj]; rfl)
      | miss href => exact .inl href

theorem DirAt.eraseEntry (h : DirAt s dp i) (he : (s.view.dirents i)[k]? = some e) (ip : Slot) :
    Wp E (Fs.eraseEntry dp ip (deSize * k)) (fun _ s' =>
      s'.view.dirents i = splice (s.view.dirents i) k [.zero]) s := by
  have hk := (List.getElem?_eq_some_iff.mp he).1
  rw [← h.inum_eq] at hk
  refine (eraseEntry_spec h.toOpenDir hk).mono ?_
  rintro _ s' ⟨s₁, hent, hset⟩
  have hdirents := hent.dirents
  rw [h.inum_eq] at hdirents
  split_ifs at hset
  · rw [View.dirents_congr (hset.bytes i), hdirents]
  · rw [hset, hdirents]

/-! ### Histories -/

/-- An operation on a directory. -/
inductive DirOp
  | link (name : Str) (inum : ℕ)
  | erase (name : Str)

/-- What it does to a map. A name that is present is not linked again. -/
def DirOp.apply (m : List Byte → Option ℕ) : DirOp → List Byte → Option ℕ
  | link name inum => if m (key name) = none then update m (key name) (some inum) else m
  | erase name => update m (key name) none

/-- The map that operations make of the map `m`: the inode linked last under each name and not
erased since. -/
def latest (m : List Byte → Option ℕ) (ops : List DirOp) : List Byte → Option ℕ :=
  ops.foldl DirOp.apply m

/-- An operation, as the kernel does it on directory `i`: `dirlink`, or the erasure by `sys_unlink`
of the entry at the offset that `dirlookup` has found. Between the two, `sys_unlink` waits for the
inode of the entry. -/
inductive DirCall (i : ℕ) : DirOp → State P → State P → Prop
  | link {s s' : State P} {me : P} {dp : Slot} {name : Str} {inum : ℕ} {r : Bool}
    (h : DirAt s dp i) (hpos : 0 < inum) (hlt : inum < 65536)
    (hrun : exec me (dirlink dp name inum) s = .ok (r, s')) : DirCall i (.link name inum) s s'
  | erase {s s₁ s₂ s' : State P} {dp ip : Slot} {name : Str} {off : ℕ} (h : DirAt s dp i)
    (hfound : dirlookup dp name s = .ok (some (ip, off), s₁)) (h₂ : DirAt s₂ dp i)
    (hsame : s₂.view.dirents i = s₁.view.dirents i)
    (hrun : eraseEntry dp ip off s₂ = .ok ((), s')) : DirCall i (.erase name) s s'

/-- Directory `i` has begun as the map `m`, and operations have been done on it. Whatever else has
happened has left it as it was. -/
inductive DirHistory (i : ℕ) (m : List Byte → Option ℕ) : List DirOp → State P → Prop
  | start {s : State P} (h : Models (s.view.dirents i) m) : DirHistory i m [] s
  | other {ops : List DirOp} {s s' : State P} (h : DirHistory i m ops s)
    (hsame : s'.view.dirents i = s.view.dirents i) : DirHistory i m ops s'
  | call {ops : List DirOp} {op : DirOp} {s s' : State P} (h : DirHistory i m ops s)
    (hcall : DirCall i op s s') : DirHistory i m (ops ++ [op]) s'

theorem Models.call {op : DirOp} (h : Models (s.view.dirents i) m) (hcall : DirCall i op s s') :
    Models (s'.view.dirents i) (op.apply m) := by
  cases hcall with
  | @link _ _ me dp name inum r hdir hpos hlt hrun =>
    have hspec := (hdir.dirlink (F := fun _ => True) me name inum (fun _ _ => trivial)
      fun _ _ _ => trivial).of_ok hrun
    rw [DirOp.apply, ← h.bound_eq]
    split_ifs with hnone
    · rw [if_pos hnone] at hspec
      have hdirents := hspec.2.dirents
      rw [hdir.inum_eq] at hdirents
      rw [hdirents]
      exact h.link ((h.bound_eq name).symm.trans hnone) hpos hlt
    · rw [if_neg hnone] at hspec
      rw [hspec.2]
      exact h
  | @erase _ s₁ s₂ _ dp ip name off hdir hfound h₂ hsame hrun =>
    have hlook := (hdir.dirlookup (E := fun _ => True) name fun _ => trivial).of_ok hfound
    cases hl : lookupFrom name (s.view.dirents i) 0 with
    | none =>
      rw [hl] at hlook
      exact absurd hlook.1 (by simp)
    | some q =>
      obtain ⟨j, off'⟩ := q
      rw [hl] at hlook
      obtain ⟨jp, heq, hgot⟩ := hlook
      obtain ⟨rfl, rfl⟩ := Prod.mk.inj (Option.some.inj heq)
      obtain ⟨k, e, he, hoff, hne, hkey, -⟩ := exists_of_lookupFrom hl
      rw [Nat.zero_add] at hoff
      have hsame₂ : s₂.view.dirents i = s.view.dirents i := by rw [hsame, hgot.view]
      rw [hoff] at hrun
      rw [(h₂.eraseEntry (E := fun _ => True) (hsame₂ ▸ he) ip).of_ok hrun, hsame₂]
      exact h.erase he hne hkey

theorem DirHistory.models {ops : List DirOp} (h : DirHistory i m ops s) :
    Models (s.view.dirents i) (latest m ops) := by
  induction h with
  | start h => exact h
  | other _ hsame ih => exact hsame ▸ ih
  | call _ hcall ih =>
    rw [latest, foldl_append]
    exact ih.call hcall

/-- The directory is a finite map. Its entries in use have different names. `dirlookup` finds the
inode linked last under a name and not erased since, and the offset of its entry; erasing the entry
at this offset removes the binding and no other. `dirlink` refuses a name that is present, and
leaves the disk as it was, and otherwise adds the binding and no other: here the inode that has the
name must not be locked. -/
theorem directory_is_map {ops : List DirOp} (h : DirHistory i m ops s) (hdir : DirAt s dp i)
    (name : Str) :
    Distinct (s.view.dirents i) ∧
    Wp (fun e => e = .igetNoInodes ∧ ∀ jp, 0 < (s.icache jp).ref) (dirlookup dp name)
      (fun r s' => r.map (fun q => (s'.icache q.1).inum) = latest m ops (key name) ∧
        s'.view = s.view ∧
        ∀ jp off, r = some (jp, off) →
          (∃ k e, (s.view.dirents i)[k]? = some e ∧ off = deSize * k ∧ e.inum ≠ 0 ∧
            key e.name = key name ∧ e.inum.toNat = (s'.icache jp).inum) ∧
          ∀ t : State P, DirAt t dp i → t.view.dirents i = s.view.dirents i →
            Wp (fun _ => False) (eraseEntry dp jp off) (fun _ t' =>
              Models (t'.view.dirents i) (update (latest m ops) (key name) none)) t) s ∧
    ∀ me inum, 0 < inum → inum < 65536 →
      (∀ jp, (s.icache jp).lock ≠ none →
        0 < (s.icache jp).ref ∧ latest m ops (key name) ≠ some (s.icache jp).inum) →
      Wpx me (DirlinkStop s i) (dirlink dp name inum) (fun r s' =>
        (r = false ↔ latest m ops (key name) ≠ none) ∧ (r = false → s'.view = s.view) ∧
        Models (s'.view.dirents i) (if r then update (latest m ops) (key name) (some inum)
          else latest m ops)) s := by
  have hmod := h.models
  refine ⟨hmod.distinct, ?_, fun me inum hpos hlt hlock => ?_⟩
  · refine (hdir.dirlookup name fun hall => ⟨rfl, hall⟩).mono fun r s' hr => ?_
    have hbound := map_lookupFrom name (s.view.dirents i) 0
    rw [hmod.bound_eq] at hbound
    cases hl : lookupFrom name (s.view.dirents i) 0 with
    | none =>
      rw [hl] at hr hbound
      obtain ⟨rfl, rfl⟩ := hr
      exact ⟨hbound, rfl, fun _ _ hr => absurd hr (by simp)⟩
    | some q =>
      obtain ⟨j, off⟩ := q
      rw [hl] at hr hbound
      obtain ⟨jp, rfl, hgot⟩ := hr
      refine ⟨?_, hgot.view, ?_⟩
      · rw [← hbound, Option.map_some, hgot.inum]
        rfl
      · rintro _ _ ⟨⟩
        obtain ⟨k, e, he, hoff, hne, hkey, hinum⟩ := exists_of_lookupFrom hl
        rw [Nat.zero_add] at hoff
        refine ⟨⟨k, e, he, hoff, hne, hkey, hinum.trans hgot.inum.symm⟩, fun t ht hsame => ?_⟩
        rw [hoff]
        refine (ht.eraseEntry (hsame ▸ he) jp).mono fun _ t' ht' => ?_
        rw [ht', hsame]
        exact hmod.erase he hne hkey
  · refine (hdir.dirlink me name inum (fun _ => id) fun jp hjp hor => ?_).mono fun r s' hr => ?_
    · obtain ⟨hpos, hne⟩ := hlock jp hjp
      rw [hmod.bound_eq] at hor
      exact hor.elim (fun hzero => absurd hzero hpos.ne') fun heq => absurd heq hne
    · rw [hmod.bound_eq] at hr
      split_ifs at hr with hnone
      · obtain ⟨rfl, hent⟩ := hr
        have hdirents := hent.dirents
        rw [hdir.inum_eq] at hdirents
        refine ⟨by simp [hnone], fun hf => absurd hf (by simp), ?_⟩
        rw [if_pos rfl, hdirents]
        exact hmod.link hnone hpos hlt
      · obtain ⟨rfl, hview⟩ := hr
        refine ⟨by simp [hnone], fun _ => hview, ?_⟩
        rw [if_neg (by simp), hview]
        exact hmod

/-! ### The root directory of the small file system -/

/-- The map that it stands for, with the entries that `mkfs` has stored. -/
def imageMap : List Byte → Option ℕ :=
  latest (fun _ => none) [.link dotName rootIno, .link dotdotName rootIno]

theorem models_image : Models (image.view.dirents rootIno) imageMap := by
  have hes : image.view.dirents rootIno = [⟨1, key dotName⟩, ⟨1, key dotdotName⟩] := by
    decide +kernel
  have hdot : Models [⟨1, key dotName⟩]
      (update (fun _ => none) (key dotName) (some rootIno)) :=
    models_nil.link rfl (by decide) (by decide)
  have hnone : update (fun _ => none) (key dotName) (some rootIno) (key dotdotName) =
      none := by decide
  rw [hes, imageMap, latest]
  simp only [foldl_cons, foldl_nil, DirOp.apply, if_true, hnone]
  exact hdot.link hnone (by decide) (by decide)

theorem dirAt_image : DirAt (image.lockRead 0 0) 0 rootIno := by
  have hq := quiescent_image 0
  have hpos : 0 < (image.icache 0).ref := by decide
  have hinum : (image.icache 0).inum = 1 := rfl
  have htype : (image.view.dino (image.icache 0).inum).type = tDir := by
    rw [hinum, image_dino_one]
    rfl
  have hu : Using 0 image (fun _ => 0) ∅ image := .refl hq.store hq.lock
  have hu' : Using 0 image (fun _ => 0) {0} (image.lockRead 0 0) :=
    hu.of_calm (hu.toAlone.locked hpos (by rw [htype]; decide)) (.setInode ..)
  exact ⟨hu'.openDir hq hpos rfl htype, rfl, rfl⟩

/-- `dirlink` of a name that stands for the directory itself waits for the lock that its caller
holds. -/
theorem dirlink_dot_waits :
    DirHistory rootIno imageMap [] (image.lockRead 0 0) ∧
    DirAt (image.lockRead 0 0) 0 rootIno ∧
    latest imageMap [] (key dotName) = some rootIno ∧
    exec 0 (dirlink 0 dotName 2) (image.lockRead 0 0) = .error (.wait 0) := by
  refine ⟨.start models_image, dirAt_image, by decide +kernel, ?_⟩
  have hstop : (exec 0 (dirlink 0 dotName 2) (image.lockRead 0 0)).map (fun _ => ()) =
      .error (.wait 0) := by decide +kernel
  cases hrun : exec 0 (dirlink 0 dotName 2) (image.lockRead 0 0) with
  | ok r =>
    rw [hrun] at hstop
    cases hstop
  | error e =>
    rw [hrun] at hstop
    cases hstop
    rfl

/-- A name of 15 bytes in the root directory. -/
theorem directory_is_map_long : ∃ s : State (Fin 2), s = image.lockRead 0 0 ∧
    Wpx 0 (DirlinkStop s rootIno) (dirlink 0 (replicate 15 97) 2) (fun r s' =>
      r = true ∧ Models (s'.view.dirents rootIno)
        (update imageMap (replicate 14 97) (some 2))) s := by
  obtain ⟨s, hs⟩ : ∃ s, s = image.lockRead 0 0 := ⟨_, rfl⟩
  have hdir : DirAt s 0 rootIno := hs ▸ dirAt_image
  have hstart : DirHistory rootIno imageMap [] s := .start (by rw [hs]; exact models_image)
  have hkey : key (replicate 15 97) = replicate 14 97 := by decide
  have hnone : latest imageMap [] (replicate 14 97) = none := by decide +kernel
  obtain ⟨-, -, hlink⟩ := directory_is_map hstart hdir (replicate 15 97)
  rw [hkey, hnone] at hlink
  refine ⟨s, hs, (hlink 0 2 (by decide) (by decide) fun jp hjp => ?_).mono fun r s' hr => ?_⟩
  · have hall : ∀ jp : Slot, ((image.lockRead 0 0).icache jp).lock ≠ none →
        0 < ((image.lockRead 0 0).icache jp).ref := by decide +kernel
    rw [hs] at hjp ⊢
    exact ⟨hall jp hjp, by simp⟩
  · have htrue : r = true := by simpa using hr.1
    subst htrue
    exact ⟨rfl, hr.2.2⟩

end Dave.Fs
