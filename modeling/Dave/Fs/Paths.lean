import Dave.Fs.Alone
import Dave.Fs.Image

/-!
# Following paths

`namei` and `nameiparent` follow a path from the root or from the current directory. When no other
process is in the file system, they do it by looking up one component after the other: the
components are the parts of the path between slashes, cut to `DIRSIZ` bytes.
-/

namespace Dave.Fs

open Option List Prog

variable {P : Type}

/-! ### Components -/

/-- The components of a path: the parts of the string between slashes that are not empty, each cut
to `DIRSIZ` bytes. -/
def components (path : Str) : List Str :=
  (((path.takeWhile (· ≠ 0)).splitOn slash).filter (· ≠ [])).map (·.take dirSiz)

theorem components_slash (path : Str) : components (slash :: path) = components path := by
  have htake : (slash :: path).takeWhile (· ≠ 0) = slash :: path.takeWhile (· ≠ 0) :=
    takeWhile_cons_of_pos (by decide)
  rw [components, components, htake, splitOn_cons_eq_if_modifyHead, if_pos (by decide)]
  rfl

theorem components_dropWhile (path : Str) :
    components (path.dropWhile (· = slash)) = components path := by
  induction path with
  | nil => rfl
  | cons c path ih =>
    by_cases hc : c = slash
    · rw [dropWhile_cons_of_pos (by simpa using hc), ih, hc, components_slash]
    · rw [dropWhile_cons_of_neg (by simpa using hc)]

theorem components_of_headD {path : Str} (h : path.headD 0 = 0) : components path = [] := by
  cases path with
  | nil => rfl
  | cons c path =>
    obtain rfl : c = 0 := h
    rfl

theorem components_append {elem rest : Str} (hne : elem ≠ [])
    (helem : ∀ c ∈ elem, c ≠ slash ∧ c ≠ 0) (hrest : rest.headD 0 = slash ∨ rest.headD 0 = 0) :
    components (elem ++ rest) = elem.take dirSiz :: components rest := by
  have hsplit : ∀ c ∈ elem, (c == slash) = false := fun c hc => by simpa using (helem c hc).1
  have htake : (elem ++ rest).takeWhile (· ≠ 0) = elem ++ rest.takeWhile (· ≠ 0) :=
    takeWhile_append_of_pos fun c hc => by simpa using (helem c hc).2
  rw [components, htake]
  rcases hrest with hc | hc
  · cases rest with
    | nil => exact absurd hc (by decide)
    | cons c rest =>
      obtain rfl : c = slash := hc
      have hnz : (slash :: rest).takeWhile (· ≠ 0) = slash :: rest.takeWhile (· ≠ 0) :=
        takeWhile_cons_of_pos (by decide)
      rw [hnz, splitOn, splitOnP_append_cons_of_forall_mem hsplit slash (by decide),
        filter_cons_of_pos (by simpa using hne), map_cons, components_slash]
      rfl
  · have hnil : rest.takeWhile (· ≠ 0) = [] := by
      cases rest with
      | nil => rfl
      | cons c rest =>
        obtain rfl : c = 0 := hc
        rfl
    rw [hnil, append_nil, splitOn, splitOnP_eq_singleton hsplit,
      filter_cons_of_pos (by simpa using hne), components_of_headD hc]
    rfl

theorem skipelem_spec (path : Str) : (skipelem path = none ∧ components path = []) ∨
    ∃ rest name, skipelem path = some (rest, name) ∧ components path = name :: components rest ∧
      rest.length < path.length := by
  rw [← components_dropWhile, skipelem]
  have hlen : (path.dropWhile (· = slash)).length ≤ path.length :=
    (dropWhile_suffix _).length_le
  have hslash : (path.dropWhile (· = slash)).headD 0 ≠ slash := by
    have hhead := head?_dropWhile_not (fun c => decide (c = slash)) path
    cases hp : path.dropWhile (· = slash) with
    | nil => decide
    | cons c p =>
      rw [hp] at hhead
      simpa using hhead
  generalize path.dropWhile (· = slash) = p at hlen hslash ⊢
  by_cases hzero : p.headD 0 = 0
  · exact .inl ⟨if_pos hzero, components_of_headD hzero⟩
  · have hsplit : (p.takeWhile fun c => c ≠ slash ∧ c ≠ 0) ++
        (p.dropWhile fun c => c ≠ slash ∧ c ≠ 0) = p := takeWhile_append_dropWhile
    have hdrop : p.drop (p.takeWhile fun c => c ≠ slash ∧ c ≠ 0).length =
        p.dropWhile fun c => c ≠ slash ∧ c ≠ 0 :=
      (congrArg (drop _) hsplit.symm).trans drop_left
    have hne : (p.takeWhile fun c => c ≠ slash ∧ c ≠ 0) ≠ [] := by
      cases p with
      | nil => exact absurd rfl hzero
      | cons c p =>
        have hc : c ≠ slash ∧ c ≠ 0 := ⟨hslash, hzero⟩
        rw [takeWhile_cons_of_pos (by simpa using hc)]
        exact cons_ne_nil _ _
    refine .inr ⟨_, _, if_neg hzero, ?_, ?_⟩
    · rw [hdrop, components_dropWhile]
      conv_lhs => rw [← hsplit]
      refine components_append hne (fun c hc => ?_) ?_
      · simpa using all_eq_true.mp all_takeWhile c hc
      · have hhead := head?_dropWhile_not (fun c => decide (c ≠ slash ∧ c ≠ 0)) p
        cases hp : p.dropWhile fun c => c ≠ slash ∧ c ≠ 0 with
        | nil => exact .inr rfl
        | cons c q =>
          rw [hp] at hhead
          simp only [head?_cons, decide_eq_false_iff_not, not_and_or, not_not] at hhead
          exact hhead
    · have hle : ((p.dropWhile fun c => c ≠ slash ∧ c ≠ 0).dropWhile (· = slash)).length ≤
          (p.dropWhile fun c => c ≠ slash ∧ c ≠ 0).length := (dropWhile_suffix _).length_le
      have hpos := length_pos_of_ne_nil hne
      have hsum := congrArg length hsplit
      rw [length_append] at hsum
      rw [hdrop]
      omega

theorem elementsLoop_eq {fuel : ℕ} {path : Str} (h : path.length ≤ fuel) :
    elementsLoop fuel path = components path := by
  induction fuel generalizing path with
  | zero =>
    obtain rfl := length_eq_zero_iff.mp (Nat.le_zero.mp h)
    rfl
  | succ fuel ih =>
    rw [elementsLoop]
    rcases skipelem_spec path with ⟨hskip, hnil⟩ | ⟨rest, name, hskip, hcons, hlt⟩
    · rw [hskip, hnil]
    · rw [hskip, hcons, ← ih (by omega)]

theorem elements_eq (path : Str) : elements path = components path := elementsLoop_eq le_rfl

/-! ### The tree -/

namespace View

variable (v : View) (i : ℕ)

/-- The inode that directory `i` has under a name. -/
def step (i : ℕ) (name : Str) : Option ℕ :=
  if (v.dino i).type = tDir then (lookupFrom name (v.dirents i) 0).map Prod.fst else none

/-- The inode that a list of components leads to, from inode `i` on. -/
def resolve (es : List Str) : Option ℕ := es.foldlM v.step i

/-- The directory that all components but the last lead to, and the last component. -/
def parent (es : List Str) : Option (ℕ × Str) :=
  es.getLast?.bind fun name =>
    ((v.resolve i es.dropLast).filter fun d => (v.dino d).type = tDir).map fun d => (d, name)

variable {v i} {name : Str} {es : List Str}

theorem resolve_cons :
    v.resolve i (name :: es) = (v.step i name).bind fun j => v.resolve j es := foldlM_cons

theorem parent_nil : v.parent i [] = none := rfl

theorem parent_singleton (name : Str) :
    v.parent i [name] = if (v.dino i).type = tDir then some (i, name) else none := by
  by_cases h : (v.dino i).type = tDir
  · simp [parent, resolve, h]
  · simp [parent, resolve, Option.filter]

theorem parent_cons (hes : es ≠ []) :
    v.parent i (name :: es) = (v.step i name).bind fun j => v.parent j es := by
  obtain ⟨x, xs, rfl⟩ := exists_cons_of_ne_nil hes
  simp only [parent, getLast?_cons_cons, dropLast_cons_cons, resolve_cons]
  cases v.step i name with
  | none => simp
  | some j => rfl

theorem of_parent_eq_some {d : ℕ} (h : v.parent i es = some (d, name)) :
    es.getLast? = some name ∧ (v.dino d).type = tDir := by
  obtain ⟨last, hlast, h⟩ := bind_eq_some_iff.mp h
  obtain ⟨d', hd', heq⟩ := map_eq_some_iff.mp h
  obtain ⟨rfl, rfl⟩ := Prod.mk.inj heq
  exact ⟨hlast, by simpa using (filter_eq_some_iff.mp hd').2⟩

theorem resolve_eq_parent (hes : es ≠ []) :
    v.resolve i es = (v.parent i es).bind fun r => v.step r.1 r.2 := by
  induction es generalizing i with
  | nil => exact absurd rfl hes
  | cons name es ih =>
    cases es with
    | nil =>
      rw [resolve_cons, parent_singleton]
      by_cases h : (v.dino i).type = tDir
      · rw [if_pos h, bind_some]
        exact bind_fun_some _
      · rw [if_neg h, step, if_neg h]
        rfl
    | cons name' es =>
      rw [resolve_cons, parent_cons (cons_ne_nil _ _), bind_assoc]
      exact bind_congr fun j _ => ih (cons_ne_nil _ _)

variable (v i) in
/-- Where `namex` leads in its two modes. -/
def walk (parent : Bool) (es : List Str) : Option (ℕ × Str) :=
  if parent then v.parent i es else (v.resolve i es).map fun j => (j, [])

theorem walk_of_not_dir {parent : Bool} (h : (v.dino i).type ≠ tDir) :
    v.walk i parent (name :: es) = none := by
  have hstep : v.step i name = none := if_neg h
  cases parent with
  | false => simp [walk, resolve_cons, hstep]
  | true =>
    cases es with
    | nil => simpa [walk, parent_singleton] using h
    | cons => simp [walk, parent_cons, hstep]

theorem walk_cons {parent : Bool} (h : ¬ (parent = true ∧ es = [])) :
    v.walk i parent (name :: es) = (v.step i name).bind fun j => v.walk j parent es := by
  cases parent with
  | false =>
    simp only [walk, resolve_cons, Bool.false_eq_true, if_false]
    exact map_bind
  | true => exact parent_cons fun hes => h ⟨rfl, hes⟩

end View

/-! ### The two modes -/

/-- An inode that a name leads to: it is allocated, and has a link or is in use. -/
def Named (s : State P) (i : ℕ) : Prop :=
  i < s.sb.ninodes ∧ (s.view.dino i).type ≠ 0 ∧
    ((s.view.dino i).nlink ≠ 0 ∨ ∃ ip, 0 < (s.icache ip).ref ∧ (s.icache ip).inum = i)

/-- A tree of directories in which one process works alone: the disk and the inode cache are in
order, no inode is locked, the process has a current directory, and the root and what a directory
has an entry for are allocated. -/
structure Quiescent (s : State P) (me : P) : Prop where
  store : StoreOk s
  lock : ∀ ip, (s.icache ip).lock = none
  cwd : ∃ ip, (s.proc me).cwd = some ip ∧ 0 < (s.icache ip).ref ∧
    (s.view.dino (s.icache ip).inum).type ≠ 0
  root : Named s rootIno
  size_dvd : ∀ i, (s.view.dino i).type = tDir → deSize ∣ (s.view.dino i).size.toNat
  entry : ∀ i, (s.view.dino i).type = tDir → ∀ e ∈ s.view.dirents i, e.inum ≠ 0 →
    Named s e.inum.toNat

/-- The panic of a process that finds the inode cache full: at most one entry is free when it
starts. -/
def CacheFull (s : State P) (e : Stop Panic Slot) : Prop :=
  e = .panic .igetNoInodes ∧ ∀ ip jp, (s.icache ip).ref = 0 → (s.icache jp).ref = 0 → ip = jp

/-- A reference to an entry, if there is one. -/
def oneRef (o : Option Slot) (jp : Slot) : ℕ := if o = some jp then 1 else 0

theorem oneRef_self (ip : Slot) : oneRef (some ip) ip = 1 := if_pos rfl

theorem oneRef_of_ne {ip jp : Slot} (h : jp ≠ ip) : oneRef (some ip) jp = 0 :=
  if_neg fun he => h (some.inj he).symm

theorem oneRef_take (ip jp : Slot) :
    Function.update (fun _ => 0) ip (0 + 1) jp = oneRef (some ip) jp := by
  by_cases h : jp = ip
  · subst h
    simp [oneRef_self]
  · simp [h, oneRef_of_ne h]

theorem oneRef_drop (ip jp : Slot) :
    Function.update (oneRef (some ip)) ip (oneRef (some ip) ip - 1) jp = oneRef none jp := by
  by_cases h : jp = ip
  · subst h
    simp [oneRef]
  · simp [h, oneRef, Ne.symm h]

theorem oneRef_move (ip jp kp : Slot) :
    Function.update (Function.update (oneRef (some ip)) jp (oneRef (some ip) jp + 1)) ip
      (Function.update (oneRef (some ip)) jp (oneRef (some ip) jp + 1) ip - 1) kp =
        oneRef (some jp) kp := by
  by_cases hj : ip = jp
  · subst hj
    by_cases hk : kp = ip
    · subst hk
      simp
    · simp [hk]
  · by_cases hk : kp = ip
    · subst hk
      simp [hj, oneRef, Ne.symm hj]
    · by_cases hkj : kp = jp
      · subst hkj
        simp [hk, oneRef, Ne.symm hk]
      · simp [hk, hkj, oneRef, Ne.symm hk, Ne.symm hkj]

/-- Following a path has led to `o`: the entry of the inode is returned, with a reference, and
nothing else has changed. -/
def Arrived (me : P) (s : State P) (o : Option (ℕ × Str)) (r : Option (Slot × Str))
    (s' : State P) : Prop :=
  r.map (fun q => ((s'.icache q.1).inum, q.2)) = o ∧ Using me s (oneRef (r.map Prod.fst)) ∅ s'

section Modes

variable {s s' : State P} {me : P} {ip jp : Slot} {i : ℕ} {name : Str}
  {F : Stop Panic Slot → Prop}

theorem Quiescent.of_lookup (h : Quiescent s me) (hdir : (s.view.dino i).type = tDir) {j off : ℕ}
    (hlook : lookupFrom name (s.view.dirents i) 0 = some (j, off)) : Named s j := by
  obtain ⟨k, e, he, -, hinum, -, rfl⟩ := exists_of_lookupFrom hlook
  exact h.entry i hdir e (mem_of_getElem? he) hinum

variable {lk : Finset Slot}

theorem CacheFull.of_using (hu : Using me s (oneRef (some ip)) lk s')
    (hall : ∀ jp, 0 < (s'.icache jp).ref) : CacheFull s (.panic .igetNoInodes) := by
  have heq (jp : Slot) (hj : (s.icache jp).ref = 0) : jp = ip := by_contra fun hne => by
    have := hall jp
    rw [hu.ref, hj, oneRef_of_ne hne] at this
    omega
  exact ⟨rfl, fun a b ha hb => (heq a ha).trans (heq b hb).symm⟩

variable {extra : Slot → ℕ}

theorem Alone.kept (h : Alone me s extra lk s') (hpos : 0 < (s'.icache ip).ref)
    (hi : (s'.icache ip).inum = i)
    (hn : (s.view.dino i).nlink ≠ 0 ∨ ∃ jp, 0 < (s.icache jp).ref ∧ (s.icache jp).inum = i) :
    0 < (s.icache ip).ref ∨ (s.view.dino i).nlink ≠ 0 := by
  refine hn.symm.imp_left ?_
  rintro ⟨jp, hposj, hj⟩
  have hposj' : 0 < (s'.icache jp).ref := by
    rw [h.ref]
    omega
  rw [h.store.cache.unique ip jp hpos hposj' (by rw [hi, h.inum jp hposj, hj])]
  exact hposj

theorem Using.kept (hu : Using me s (oneRef (some ip)) lk s') (hi : (s'.icache ip).inum = i)
    (hn : (s.view.dino i).nlink ≠ 0 ∨ ∃ jp, 0 < (s.icache jp).ref ∧ (s.icache jp).inum = i) :
    0 < (s.icache ip).ref ∨ (s.view.dino i).nlink ≠ 0 :=
  hu.toAlone.kept (hu.ref_pos (by rw [oneRef_self]; omega)) hi hn

theorem Using.openDir (h : Quiescent s me) (hu : Using me s extra lk s')
    (hpos : 0 < (s'.icache ip).ref) (hvalid : (s'.icache ip).valid = true)
    (hdir : (s.view.dino (s'.icache ip).inum).type = tDir) : OpenDir s' ip := by
  have hl := hu.store.cache.loaded ip hpos hvalid
  have hcopy := hl.copy
  rw [hu.view] at hcopy
  exact ⟨hu.store.disk, hl, hcopy ▸ hdir, hcopy ▸ h.size_dvd _ hdir⟩

theorem Using.dirlookup (h : Quiescent s me) (hu : Using me s (oneRef (some ip)) lk s')
    (hvalid : (s'.icache ip).valid = true) (hi : (s'.icache ip).inum = i)
    (hdir : (s.view.dino i).type = tDir)
    (hF : CacheFull s (.panic .igetNoInodes) → F (.panic .igetNoInodes)) (name : Str) :
    Wp (fun e => F (.panic e)) (Fs.dirlookup ip name) (fun r s'' =>
      match lookupFrom name (s.view.dirents i) 0 with
      | none => r = none ∧ s'' = s'
      | some (j, off) => ∃ jp, r = some (jp, off) ∧ Got s' j jp s'') s' := by
  have hpos : 0 < (s'.icache ip).ref := by
    rw [hu.ref, oneRef_self]
    omega
  have hlook := dirlookup_spec (E := fun e => F (.panic e))
    (hu.openDir h hpos hvalid (hi ▸ hdir)) (hu.store.cache.dev_eq ip hpos) name fun hall =>
      hF (.of_using hu hall)
  rwa [hu.view, hi] at hlook

variable [DecidableEq P]

/-- The loop follows the names that are left, with a reference to the inode it has come to. -/
theorem namexLoop_spec (hq : Quiescent s me) {parent : Bool} {es : List Str}
    (hF : CacheFull s (.panic .igetNoInodes) → F (.panic .igetNoInodes))
    (hu : Using me s (oneRef (some ip)) ∅ s') (hi : (s'.icache ip).inum = i)
    (ht : (s.view.dino i).type ≠ 0)
    (hkeep : 0 < (s.icache ip).ref ∨ (s.view.dino i).nlink ≠ 0) :
    Wpx me F (namexLoop me parent es ip) (Arrived me s (s.view.walk i parent es)) s' := by
  induction es generalizing ip i s' with
  | nil =>
    cases parent with
    | true =>
      simp only [namexLoop, if_true, wpx_bind, pure_eq_ret, wpx_ret]
      refine (hu.iput (Finset.notMem_empty _) (by rw [oneRef_self]; omega) ?_).mono
        fun _ s₁ hs₁ => ⟨rfl, hs₁.1.congr (oneRef_drop ip)⟩
      exact hi ▸ hkeep.imp_left (by rw [oneRef_self]; omega)
    | false =>
      simp only [namexLoop, Bool.false_eq_true, if_false, pure_eq_ret, wpx_ret]
      exact ⟨congrArg (fun j => some (j, [])) hi, hu⟩
  | cons name rest ih =>
    have hpos : 0 < (s'.icache ip).ref := by
      rw [hu.ref, oneRef_self]
      omega
    simp only [namexLoop, wpx_bind]
    refine (hu.ilock (Finset.notMem_empty _) hpos (hi ▸ ht) _).mono fun _ s₁ hs₁ => ?_
    obtain ⟨rfl, hu₁⟩ := hs₁
    have hi₁ : ((s'.lockRead ip me).icache ip).inum = i := by simp [State.lockRead, hi]
    have hpos₁ : 0 < ((s'.lockRead ip me).icache ip).ref := by simpa [State.lockRead] using hpos
    have hd : ((s'.lockRead ip me).icache ip).d = s.view.dino i := by
      simp [State.lockRead, hu.view, hi]
    simp only [wpx_lift, wp_bind, wp_get, wp_pure, hd]
    -- giving the inode back on a failure
    have hmem : ip ∈ insert ip (∅ : Finset Slot) := Finset.mem_insert_self _ _
    have hput : Wpx me F (iunlockput me ip) (fun _ s₂ => Using me s (oneRef none) ∅ s₂)
        (s'.lockRead ip me) := by
      refine (hu₁.iunlockput hmem (by rw [oneRef_self]; omega) ?_).mono fun _ s₂ hs₂ =>
        (hs₂.1.congr (oneRef_drop ip)).congr_lk (Finset.erase_insert (Finset.notMem_empty _))
      exact hi₁.symm ▸ hkeep.imp_left (by rw [oneRef_self]; omega)
    split_ifs with hdir hlast
    · rw [View.walk_of_not_dir hdir, wpx_bind]
      exact hput.mono fun _ s₂ hs₂ => ⟨rfl, hs₂⟩
    · obtain ⟨rfl, rfl⟩ := hlast
      rw [View.walk, if_pos rfl, View.parent_singleton, if_pos (not_not.mp hdir), wpx_bind]
      refine (hu₁.iunlock hmem hpos₁).mono fun _ s₂ hs₂ => ?_
      refine ⟨?_, hs₂.1.congr_lk (Finset.erase_insert (Finset.notMem_empty _))⟩
      exact congrArg (fun j => some (j, name)) ((hs₂.2.inum ip).trans hi₁)
    · rw [View.walk_cons hlast]
      rw [not_not] at hdir
      rw [wpx_bind, wpx_lift]
      refine (hu₁.dirlookup hq (by simp [State.lockRead]) hi₁ hdir hF name).mono fun r s₂ hr => ?_
      rw [View.step, if_pos hdir]
      cases hfound : lookupFrom name (s.view.dirents i) 0 with
      | none =>
        rw [hfound] at hr
        obtain ⟨rfl, rfl⟩ := hr
        rw [wpx_bind]
        exact hput.mono fun _ s₂ hs₂ => ⟨rfl, hs₂⟩
      | some found =>
        obtain ⟨j, off⟩ := found
        rw [hfound] at hr
        obtain ⟨next, rfl, hgot⟩ := hr
        obtain ⟨hj, htype, hnlink⟩ := hq.of_lookup hdir hfound
        have hu₂ := hu₁.got hgot hj
        have hextra :
            0 < Function.update (oneRef (some ip)) next (oneRef (some ip) next + 1) ip := by
          by_cases hn : ip = next
          · subst hn
            simp
          · simp [hn, oneRef]
        rw [wpx_bind]
        refine (hu₂.iunlockput hmem hextra ?_).mono fun _ s₃ hs₃ => ?_
        · rw [(hgot.inum_of_pos hpos₁).trans hi₁]
          exact hkeep.imp_left (by omega)
        · have hu₃ := (hs₃.1.congr (oneRef_move ip next)).congr_lk
            (Finset.erase_insert (Finset.notMem_empty _))
          have hi₃ := (hs₃.2.inum next).trans hgot.inum
          exact ih hu₃ hi₃ htype (hu₃.kept hi₃ hnlink)

/-- The inode at which a path starts: the root or the current directory. -/
def State.start (s : State P) (me : P) (path : Str) : ℕ :=
  if path.headD 0 = slash then rootIno
  else ((s.proc me).cwd.map fun ip => (s.icache ip).inum).getD 0

/-- `namex` arrives where the components of the path lead. -/
theorem namex_spec (hq : Quiescent s me) (path : Str) (parent : Bool)
    (hF : CacheFull s (.panic .igetNoInodes) → F (.panic .igetNoInodes)) :
    Wpx me F (namex me path parent)
      (Arrived me s (s.view.walk (s.start me path) parent (components path))) s := by
  have hu : Using me s (fun _ => 0) ∅ s := .refl hq.store hq.lock
  rw [namex, elements_eq, wpx_bind, wpx_lift, State.start]
  split_ifs with hroot
  · refine (iget_spec rootIno fun hall => hF ⟨rfl, fun ip jp hi => ?_⟩).mono fun ip s₁ hgot => ?_
    · have := hall ip
      omega
    · obtain ⟨hlt, ht, hn⟩ := hq.root
      have hu₁ := (hu.got hgot hlt).congr (oneRef_take ip)
      exact namexLoop_spec hq hF hu₁ hgot.inum ht (hu₁.kept hgot.inum hn)
  · obtain ⟨c, hc, hpos, ht⟩ := hq.cwd
    simp only [wp_bind, wp_get, hc, idup, wp_modify, wp_pure, map_some, getD_some]
    have hgot : Got s (s.icache c).inum c _ := .hit hpos rfl
    have hu₁ := (hu.got hgot (hq.store.cache.inum_lt c hpos)).congr (oneRef_take c)
    exact namexLoop_spec hq hF hu₁ hgot.inum ht (.inl hpos)

theorem Quiescent.namei (hq : Quiescent s me) (path : Str)
    (hF : CacheFull s (.panic .igetNoInodes) → F (.panic .igetNoInodes)) :
    Wpx me F (Fs.namei me path) (fun r s' =>
      r.map (fun ip => (s'.icache ip).inum) = s.view.resolve (s.start me path) (components path) ∧
      Using me s (oneRef r) ∅ s') s := by
  rw [Fs.namei, wpx_bind]
  refine (namex_spec hq path false hF).mono fun r s' hr => ⟨?_, hr.2⟩
  have := congrArg (Option.map Prod.fst) hr.1
  simpa [View.walk, Function.comp_def] using this

theorem Quiescent.nameiparent (hq : Quiescent s me) (path : Str)
    (hF : CacheFull s (.panic .igetNoInodes) → F (.panic .igetNoInodes)) :
    Wpx me F (Fs.nameiparent me path) (fun r s' =>
      r.map (fun q => ((s'.icache q.1).inum, q.2)) =
        s.view.parent (s.start me path) (components path) ∧
      Using me s (oneRef (r.map Prod.fst)) ∅ s') s := by
  refine (namex_spec hq path true hF).mono fun r s' hr => ⟨?_, hr.2⟩
  rw [hr.1, View.walk, if_pos rfl]

/-- `namei` leads to the inode that the components of the path lead to, `nameiparent` to the
directory that all components but the last lead to, and looking up the last component there
leads to the same inode as `namei`. -/
theorem path_resolution (hq : Quiescent s me) (path : Str) :
    Wpx me (CacheFull s) (namei me path) (fun r s' =>
      r.map (fun ip => (s'.icache ip).inum) =
        s.view.resolve (s.start me path) (components path) ∧
      Using me s (oneRef r) ∅ s') s ∧
    Wpx me (CacheFull s) (nameiparent me path) (fun r s' =>
      r.map (fun q => ((s'.icache q.1).inum, q.2)) =
        s.view.parent (s.start me path) (components path) ∧
      Using me s (oneRef (r.map Prod.fst)) ∅ s' ∧
      (components path = [] → r = none) ∧
      ∀ dp name, r = some (dp, name) →
        (components path).getLast? = some name ∧
        Wpx me (CacheFull s) (do ilock dp .namex; .lift (dirlookup dp name)) (fun found s'' =>
          found.map (fun q => (s''.icache q.1).inum) =
            s.view.resolve (s.start me path) (components path)) s') s := by
  constructor
  · exact hq.namei path id
  · refine (hq.nameiparent path id).mono fun r s' hr => ?_
    obtain ⟨hr, hu⟩ := hr
    refine ⟨hr, hu, fun hnil => ?_, ?_⟩
    · rw [hnil, View.parent_nil] at hr
      exact map_eq_none_iff.mp hr
    · rintro dp name rfl
      obtain ⟨hlast, hdir⟩ := View.of_parent_eq_some hr.symm
      have hne : components path ≠ [] := fun hnil => by simp [hnil] at hlast
      refine ⟨hlast, ?_⟩
      have hpos : 0 < (s'.icache dp).ref := by
        rw [hu.ref, map_some, oneRef_self]
        omega
      rw [View.resolve_eq_parent hne, ← hr, wpx_bind]
      refine (hu.ilock (Finset.notMem_empty _) hpos (by rw [hdir]; decide) _).mono
        fun _ s₁ hs₁ => ?_
      obtain ⟨rfl, hu₁⟩ := hs₁
      rw [wpx_lift]
      refine (hu₁.dirlookup hq (by simp [State.lockRead])
        (by simp [State.lockRead]) hdir id name).mono fun found s₂ hfound => ?_
      simp only [map_some, bind_some, View.step, if_pos hdir]
      cases hl : lookupFrom name (s.view.dirents (s'.icache dp).inum) 0 with
      | none =>
        rw [hl] at hfound
        simp [hfound.1]
      | some q =>
        obtain ⟨j, off⟩ := q
        rw [hl] at hfound
        obtain ⟨jp, rfl, hgot⟩ := hfound
        simp [hgot.inum]

end Modes

theorem named_image_one : Named image 1 := by
  have hlt : 1 < imageSb.ninodes := by decide
  have ht : (image.view.dino 1).type ≠ 0 := by
    rw [image_dino_one]
    decide
  have hpos : 0 < (image.icache 0).ref := by decide
  have hinum : (image.icache 0).inum = 1 := rfl
  exact ⟨hlt, ht, .inr ⟨0, hpos, hinum⟩⟩

theorem quiescent_image (p : Fin 2) : Quiescent image p where
  store := resting_image.store
  lock := resting_image.unlocked
  cwd := by
    have hpos : 0 < (image.icache 0).ref := by decide
    have hinum : (image.icache 0).inum = 1 := rfl
    exact ⟨0, rfl, hpos, hinum ▸ named_image_one.2.1⟩
  root := named_image_one
  size_dvd i hi := (resting_image.dirs i hi).1
  entry i hi := by
    obtain rfl := image_dir hi
    have hall : ∀ e ∈ image.view.dirents 1, e.inum ≠ 0 → e.inum.toNat = 1 := by decide +kernel
    intro e he hne
    rw [hall e he hne]
    exact named_image_one

/-- A path in the small file system, `//..//.`. -/
def dotsPath : Str := [slash, slash, 46, 46, slash, slash, 46]

/-- It leads to the root. -/
theorem path_resolution_dots : ∃ s : State (Fin 2), s = image ∧
    Wpx 0 (CacheFull s) (namei 0 dotsPath) (fun r s' =>
      r.map (fun ip => (s'.icache ip).inum) = some rootIno ∧ Using 0 s (oneRef r) ∅ s') s := by
  obtain ⟨s, hs⟩ : ∃ s, s = image := ⟨image, rfl⟩
  have hq : Quiescent s 0 := hs ▸ quiescent_image 0
  have hr : s.view.resolve (s.start 0 dotsPath) (components dotsPath) = some rootIno := by
    rw [hs]
    decide +kernel
  exact ⟨s, hs, hr ▸ (path_resolution hq dotsPath).1⟩

end Dave.Fs
