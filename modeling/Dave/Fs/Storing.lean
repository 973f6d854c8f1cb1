import Dave.Fs.Making

/-!
# Writing to a file

A process that runs alone opens a file for writing, writes to it and closes it: the bytes replace
those at the offset of the file, and the offset moves.
-/

namespace Dave.Fs

open Function Prog

variable {P : Type} {s s' t : State P} {me : P} {ip : Slot} {f : Fin nFile} {new src : List Byte}
  {off : ℕ}

theorem splice_nil {α : Type} {old : List α} {n : ℕ} (hn : n ≤ old.length) :
    splice old n [] = old := by
  refine List.ext_getElem? fun k => ?_
  rw [getElem?_splice hn, if_neg (by simp)]

theorem splice_splice {α : Type} {old a b : List α} {n : ℕ} (hn : n ≤ old.length) :
    splice (splice old n a) (n + a.length) b = splice old n (a ++ b) := by
  refine List.ext_getElem? fun k => ?_
  have hlen : (splice old n a).length = _ := length_splice hn
  rw [getElem?_splice (by omega), getElem?_splice hn, getElem?_splice hn, List.length_append]
  by_cases h₁ : n + a.length ≤ k ∧ k < n + a.length + b.length
  · rw [if_pos h₁, if_pos (by omega), List.getElem?_append_right (by omega)]
    congr 1
    omega
  · rw [if_neg h₁]
    by_cases h₂ : n ≤ k ∧ k < n + a.length
    · rw [if_pos h₂, if_pos (by omega), List.getElem?_append_left (by omega)]
    · rw [if_neg h₂, if_neg (by omega)]

/-- File `f` of the state `t`, which stands for entry `ip` of the inode cache, has been written to:
its bytes are `new`, its offset is `off`, and everything else is as it was. -/
structure Writing (t : State P) (f : Fin nFile) (ip : Slot) (new : List Byte) (off : ℕ)
    (s : State P) : Prop where
  sb : s.sb = t.sb
  proc : s.proc = t.proc
  store : StoreOk s
  lock : ∀ jp, (s.icache jp).lock = none
  ref : ∀ jp, (s.icache jp).ref = (t.icache jp).ref
  inum : ∀ jp, (s.icache jp).inum = (t.icache jp).inum
  ftable : s.ftable = update t.ftable f { t.ftable f with off := BitVec.ofNat 32 off }
  fields : s.view.dino (t.icache ip).inum = { t.view.dino (t.icache ip).inum with
      size := (s.view.dino (t.icache ip).inum).size
      addrs := (s.view.dino (t.icache ip).inum).addrs }
  bytes : s.view.bytes (t.icache ip).inum = new
  dino_of_ne : ∀ j, j ≠ (t.icache ip).inum → s.view.dino j = t.view.dino j
  bytes_of_ne : ∀ j, j ≠ (t.icache ip).inum → s.view.bytes j = t.view.bytes j

theorem wp_argfd {E : Panic → Prop} {fd : Fin nOfile}
    {Q : Option (Fin nOfile × Fin nFile) → State P → Prop}
    (hfd : (s.proc me).ofile fd = some f) (h : Q (some (fd, f)) s) :
    Wp E (argfd me (fd : ℕ)) Q s := by
  have hfin : (⟨((fd : ℕ) : ℤ).toNat, by simp⟩ : Fin nOfile) = fd := by simp
  simp only [argfd, wp_bind, wp_get]
  rw [dif_pos ⟨by omega, by have := fd.isLt; omega⟩, wp_pure, hfin, hfd]
  exact h

namespace Writing

theorem size_eq (h : Writing t f ip new off s) :
    (s.view.dino (t.icache ip).inum).size.toNat = new.length := by
  rw [← h.bytes, View.length_bytes]

theorem congr (h : Writing t f ip new off s) (hsb : s'.sb = s.sb) (hdisk : s'.disk = s.disk)
    (hic : s'.icache = s.icache) (hft : s'.ftable = s.ftable) (hproc : s'.proc = s.proc) :
    Writing t f ip new off s' := by
  have hview : s'.view = s.view := by
    have hdinode : s'.dinode = s.dinode := by
      funext i
      rw [State.dinode, State.dinode, hdisk, hsb]
    have hbit : s'.bit = s.bit := by
      funext b
      rw [State.bit, State.bit, hdisk, hsb]
    rw [State.view, State.view, hsb, hdinode, hbit, hdisk]
  exact
    { sb := hsb.trans h.sb
      proc := hproc.trans h.proc
      store := h.store.congr hsb hview hic
      lock := fun jp => by rw [hic]; exact h.lock jp
      ref := fun jp => by rw [hic]; exact h.ref jp
      inum := fun jp => by rw [hic]; exact h.inum jp
      ftable := hft.trans h.ftable
      fields := by rw [hview]; exact h.fields
      bytes := by rw [hview]; exact h.bytes
      dino_of_ne := fun j hj => by rw [hview]; exact h.dino_of_ne j hj
      bytes_of_ne := fun j hj => by rw [hview]; exact h.bytes_of_ne j hj }

variable [DecidableEq P]

/-- One round of the loop of `filewrite`. -/
def chunk (me : P) (f : Fin nFile) (src : List Byte) : Kernel P (Option ℕ) := do
  .lift beginOp
  let ip ← .lift do return ((← get).ftable f).ip
  ilock ip .ilock
  let off ← .lift do return ((← get).ftable f).off
  let r ← writei me ip src off
  .lift <| modify fun s =>
    s.setFile f { s.ftable f with off := (s.ftable f).off + BitVec.ofNat 32 (r.getD 0) }
  iunlock me ip
  .lift endOp
  return r

/-- A chunk is stored at the offset of the file, and moves it. -/
theorem chunk_spec (h : Writing t f ip new off s) (hip : (t.ftable f).ip = ip)
    (hpos : 0 < (t.icache ip).ref) (ht : (t.view.dino (t.icache ip).inum).type = tFile)
    (hsrc : src.length < 2 ^ 32) (hoff : off ≤ new.length) :
    Wpx me (fun _ => True) (chunk me f src) (fun r s' => ∀ n, r = some n → n = src.length ∧
      off + src.length ≤ maxFile * bSize ∧
      Writing t f ip (splice new off src) (off + src.length) s') s := by
  have h₀ : Writing t f ip new off (s.record .beginOp) := h.congr rfl rfl rfl rfl rfl
  have hsize := h.size_eq
  have hoff' : (BitVec.ofNat 32 off).toNat = off := by
    have := (s.view.dino (t.icache ip).inum).size.isLt
    rw [BitVec.toNat_ofNat, Nat.mod_eq_of_lt (by omega)]
  have hlen' : (BitVec.ofNat 32 src.length).toNat = src.length := by
    rw [BitVec.toNat_ofNat, Nat.mod_eq_of_lt hsrc]
  have hfile : (s.ftable f).ip = ip ∧ (s.ftable f).off = BitVec.ofNat 32 off := by
    rw [h.ftable, update_self]
    exact ⟨hip, rfl⟩
  have hpos₀ : 0 < ((s.record .beginOp).icache ip).ref := by rw [h₀.ref]; exact hpos
  have hi₀ : ((s.record .beginOp).icache ip).inum = (t.icache ip).inum := h₀.inum ip
  have htype₀ : (s.view.dino (t.icache ip).inum).type = tFile := by rw [h.fields, ht]
  have hne₀ : ((s.record .beginOp).view.dino ((s.record .beginOp).icache ip).inum).type ≠ 0 := by
    rw [hi₀]
    exact htype₀ ▸ by decide
  simp only [chunk, wpx_bind, wpx_lift, beginOp, wp_modify, wp_bind, wp_get, wp_pure,
    State.record_ftable, hfile.1]
  refine (wpx_ilock h₀.store hpos₀ (h₀.lock ip) hne₀ _).mono fun _ s₁ hs₁ => ?_
  have hload := h₀.store.loaded_lockRead hpos₀ hne₀ me
  have hstore₁ := h₀.store.lockRead hpos₀ hne₀ me
  rw [← hs₁] at hload hstore₁
  have hft₁ : s₁.ftable = s.ftable := by rw [hs₁]; rfl
  have hview₁ : s₁.view = s.view := by rw [hs₁]; rfl
  have hi₁ : (s₁.icache ip).inum = (t.icache ip).inum := by
    rw [hs₁]
    simpa [State.lockRead] using hi₀
  have hd₁ : (s₁.icache ip).d.type = tFile := by rw [hload.copy, hview₁, hi₁, htype₀]
  have hlock₁ : (s₁.icache ip).lock = some me := by
    rw [hs₁]
    simp [State.lockRead]
  have hpos₁ : 0 < (s₁.icache ip).ref := by
    rw [hs₁]
    simpa [State.lockRead] using hpos₀
  rw [hft₁, hfile.2, writei]
  simp only [wpx_bind, wpx_lift, wp_bind, wp_get, wp_pure, hd₁]
  rw [if_neg (by decide), wpx_lift]
  refine (writeData_spec hstore₁.disk hload (by rw [hd₁]; decide) hsrc fun _ _ => trivial).mono
    fun r s₂ hr => ?_
  split_ifs at hr with hcan
  · obtain ⟨rfl, hst⟩ := hr
    rw [CanWrite, hoff', hlen'] at hcan
    have hself := hst.touch.self
    have hlock₂ : ((s₂.setFile f { s₂.ftable f with
        off := (s₂.ftable f).off + BitVec.ofNat 32 src.length }).icache ip).lock = some me := by
      change (s₂.icache ip).lock = some me
      rw [hself]
      exact hlock₁
    have hpos₂ : 0 < ((s₂.setFile f { s₂.ftable f with
        off := (s₂.ftable f).off + BitVec.ofNat 32 src.length }).icache ip).ref := by
      change 0 < (s₂.icache ip).ref
      rw [hself]
      exact hpos₁
    rw [Option.getD_some]
    refine (wpx_iunlock hlock₂ hpos₂).mono fun _ s₃ hs₃ => ?_
    simp only [endOp, wp_modify, pure_eq_ret, wpx_ret]
    rintro n ⟨⟩
    refine ⟨rfl, hcan.2.2, ?_⟩
    subst hs₃
    have hstore₂ : StoreOk s₂ := hst.storeOk hstore₁ hpos₁
    have hentry (jp : Slot) (hj : jp ≠ ip) : s₂.icache jp = s.icache jp := by
      rw [hst.touch.of_ne hj, hs₁]
      exact update_of_ne hj ..
    have href₂ : (s₂.icache ip).ref = (t.icache ip).ref := by
      rw [hself, hs₁]
      simpa [State.lockRead] using h.ref ip
    have hview : s₂.view.dino (t.icache ip).inum = { s.view.dino (t.icache ip).inum with
          size := (s₂.view.dino (t.icache ip).inum).size
          addrs := (s₂.view.dino (t.icache ip).inum).addrs } := by
      have := hst.fields
      rwa [hi₁, hview₁] at this
    refine Writing.congr (s := (s₂.setFile f { s₂.ftable f with
      off := (s₂.ftable f).off + BitVec.ofNat 32 src.length }).setInode ip
        { s₂.icache ip with lock := none }) ?_ rfl rfl rfl rfl rfl
    have hsame : ((s₂.setFile f { s₂.ftable f with
        off := (s₂.ftable f).off + BitVec.ofNat 32 src.length }).setInode ip
          { s₂.icache ip with lock := none }).view = s₂.view := rfl
    refine
      { sb := ?_, proc := ?_, store := ?_, lock := fun jp => ?_, ref := fun jp => ?_
        inum := fun jp => ?_, ftable := ?_, fields := ?_, bytes := ?_
        dino_of_ne := fun j hj => ?_, bytes_of_ne := fun j hj => ?_ }
    · exact hst.touch.sb.trans (by rw [hs₁]; exact h.sb)
    · exact hst.touch.proc.trans (by rw [hs₁]; exact h.proc)
    · have hs : StoreOk (s₂.setFile f { s₂.ftable f with
        off := (s₂.ftable f).off + BitVec.ofNat 32 src.length }) := hstore₂.congr rfl rfl rfl
      exact hs.setInode hpos₂ rfl rfl le_rfl fun hv =>
        ⟨(hstore₂.cache.loaded ip hpos₂ hv).copy, (hstore₂.cache.loaded ip hpos₂ hv).type_ne⟩
    · by_cases hj : jp = ip
      · rw [hj, State.setInode_icache, update_self]
      · rw [State.setInode_icache, update_of_ne hj]
        exact (congrArg Inode.lock (hentry jp hj)).trans (h.lock jp)
    · by_cases hj : jp = ip
      · rw [hj, State.setInode_icache, update_self]
        exact href₂
      · rw [State.setInode_icache, update_of_ne hj]
        exact (congrArg Inode.ref (hentry jp hj)).trans (h.ref jp)
    · by_cases hj : jp = ip
      · rw [hj, State.setInode_icache, update_self]
        exact hst.touch.inum.trans hi₁
      · rw [State.setInode_icache, update_of_ne hj]
        exact (congrArg Inode.inum (hentry jp hj)).trans (h.inum jp)
    · change update s₂.ftable f _ = _
      rw [hst.touch.ftable, hft₁, h.ftable, update_idem, update_self]
      congr 2
      rw [BitVec.ofNat_add]
    · rw [hsame, hview, h.fields]
    · rw [hsame, ← hi₁, hst.bytes, hview₁, hi₁, h.bytes, hoff']
    · rw [hsame, hst.dino_of_ne j (by rw [hi₁]; exact hj), hview₁, h.dino_of_ne j hj]
    · rw [hsame, hst.bytes_of_ne j (by rw [hi₁]; exact hj), hview₁, h.bytes_of_ne j hj]
  · obtain ⟨rfl, rfl⟩ := hr
    refine (wpx_iunlock (s := s₂.setFile f _) hlock₁ hpos₁).mono fun _ s₃ _ => ?_
    simp only [endOp, wp_modify, pure_eq_ret, wpx_ret]
    intro n hn
    simp at hn

theorem wpx_filewriteLoop {F : Stop Panic Slot → Prop} {Q : Bool → State P → Prop} {fuel : ℕ}
    (hsrc : src ≠ []) :
    Wpx me F (Fs.filewriteLoop me f (fuel + 1) src) Q s ↔
      Wpx me F (chunk me f (src.take maxWrite)) (fun r s' =>
        Wpx me F (Option.elim r (pure false : Kernel P Bool) fun n =>
          if n ≠ (src.take maxWrite).length then .fail .shortFilewrite
          else Fs.filewriteLoop me f fuel (src.drop maxWrite)) Q s') s := by
  rw [Fs.filewriteLoop, if_neg hsrc, chunk]
  simp only [wpx_bind, pure_eq_ret, wpx_ret]
  congr!
  rename_i r _ _ _ _
  cases r <;> rfl

section Calls

variable {fd : Fin nOfile} (hip : (t.ftable f).ip = ip) (hpos : 0 < (t.icache ip).ref)
  (ht : (t.view.dino (t.icache ip).inum).type = tFile)
include hip hpos ht

theorem filewriteLoop {fuel : ℕ} (hfuel : src.length ≤ fuel) (h : Writing t f ip new off s)
    (hoff : off ≤ new.length) :
    Wpx me (fun _ => True) (Fs.filewriteLoop me f fuel src) (fun r s' => r = true →
      Writing t f ip (splice new off src) (off + src.length) s') s := by
  have hnil {s : State P} {new : List Byte} {off : ℕ} (h : Writing t f ip new off s)
      (hoff : off ≤ new.length) :
      Writing t f ip (splice new off []) (off + ([] : List Byte).length) s := by
    rwa [splice_nil hoff]
  induction fuel generalizing s src new off with
  | zero =>
    obtain rfl := List.length_eq_zero_iff.mp (Nat.le_zero.mp hfuel)
    exact fun _ => hnil h hoff
  | succ fuel ih =>
    by_cases hsrc : src = []
    · subst hsrc
      exact fun _ => hnil h hoff
    rw [wpx_filewriteLoop hsrc]
    have hlen : (src.take maxWrite).length ≤ 1536 := List.length_take_le ..
    refine (h.chunk_spec hip hpos ht (by omega) hoff).mono fun r s₁ hr => ?_
    cases r with
    | none => exact fun hr => absurd hr Bool.false_ne_true
    | some n =>
      obtain ⟨rfl, -, h₁⟩ := hr n rfl
      rw [Option.elim_some, if_neg (not_not.mpr rfl)]
      have hlong : (splice new off (src.take maxWrite)).length = _ := length_splice hoff
      have hdrop : (src.drop maxWrite).length ≤ fuel := by
        have := List.length_pos_iff.mpr hsrc
        rw [List.length_drop]
        have hmax : maxWrite = 1536 := rfl
        omega
      refine (ih hdrop h₁ (by omega)).mono fun r s₂ hr htrue => ?_
      have h₂ := hr htrue
      rw [splice_splice hoff, List.take_append_drop, add_assoc, ← List.length_append,
        List.take_append_drop] at h₂
      exact h₂

theorem sysWrite (hfd : (t.proc me).ofile fd = some f) (htype : (t.ftable f).type = .inode)
    (hwr : (t.ftable f).writable = true) (h : Writing t f ip new off s) (hoff : off ≤ new.length)
    (src : List Byte) :
    Wpx me (fun _ => True) (Fs.sysWrite me (fd : ℕ) src) (fun r s' => r = src.length →
      Writing t f ip (splice new off src) (off + src.length) s') s := by
  have hfile : (s.ftable f).writable = true ∧ (s.ftable f).type = .inode := by
    rw [h.ftable, update_self]
    exact ⟨hwr, htype⟩
  rw [Fs.sysWrite, wpx_bind, wpx_lift]
  refine wp_argfd (by rw [h.proc]; exact hfd) ?_
  simp only [filewrite, wpx_bind, wpx_lift, wp_bind, wp_get, wp_pure]
  rw [if_neg (by simp [hfile.1])]
  simp only [hfile.2, wpx_bind]
  refine (filewriteLoop hip hpos ht le_rfl h hoff).mono fun r s₁ hr => ?_
  simp only [pure_eq_ret, wpx_ret]
  cases r with
  | true => exact fun _ => hr rfl
  | false =>
    intro hneg
    simp at hneg

theorem sysClose (hfd : (t.proc me).ofile fd = some f) (htype : (t.ftable f).type = .inode)
    (href : (t.ftable f).ref = 1) (hkeep : 1 < (t.icache ip).ref ∨
      (t.view.dino (t.icache ip).inum).nlink ≠ 0) (h : Writing t f ip new off s) :
    Wpx me (fun _ => True) (Fs.sysClose me (fd : ℕ)) (fun _ s' => s'.view = s.view ∧
      (s'.proc me).cwd = (s.proc me).cwd ∧
      ∀ jp, (s'.icache jp).inum = (s.icache jp).inum) s := by
  have hfile : (s.ftable f).type = .inode ∧ (s.ftable f).ref = 1 ∧ (s.ftable f).ip = ip := by
    rw [h.ftable, update_self]
    exact ⟨htype, href, hip⟩
  rw [Fs.sysClose, wpx_bind, wpx_lift]
  refine wp_argfd (by rw [h.proc]; exact hfd) ?_
  simp only [setOfile, fileclose, wpx_bind, wpx_lift, wp_modify]
  refine filedrop_wp True.intro (fun hmany => absurd hmany ?_) fun _ => ?_
  · exact not_lt.mpr hfile.2.1.le
  simp only [State.setProc_ftable, hfile.1, hfile.2.2, beginOp, endOp, wpx_bind, wpx_lift,
    wp_modify]
  have hstay (hvalid : (s.icache ip).valid = true) (hnlink : (s.icache ip).d.nlink = 0) :
      (s.icache ip).ref ≠ 1 := by
    have hcopy := (h.store.cache.loaded ip (by rw [h.ref]; exact hpos) hvalid).copy
    have hzero : (t.view.dino (t.icache ip).inum).nlink = 0 := by
      rw [hcopy, h.inum, h.fields] at hnlink
      exact hnlink
    rw [h.ref]
    rcases hkeep with hmany | hlink
    · omega
    · exact absurd hzero hlink
  refine Wpx.mono (wpx_iput ?_ ?_) fun _ s₁ hs₁ => ?_
  · exact h.lock ip
  · exact hstay
  · subst hs₁
    refine ⟨rfl, ?_, fun jp => ?_⟩
    · simp
    · by_cases hj : jp = ip
      · subst hj
        simp
      · simp [hj]

end Calls

end Writing

/-! ### Opening -/

/-- The bytes of the file that a path leads to. -/
def State.contents (s : State P) (me : P) (path : Str) : Option (List Byte) :=
  (s.view.resolve (s.start me path) (components path)).map s.view.bytes

theorem State.start_congr (hcwd : (s'.proc me).cwd = (s.proc me).cwd)
    (hinum : ∀ ip, (s.proc me).cwd = some ip → (s'.icache ip).inum = (s.icache ip).inum)
    (path : Str) : s'.start me path = s.start me path := by
  rw [State.start, State.start, hcwd]
  cases hc : (s.proc me).cwd with
  | none => rfl
  | some ip => rw [Option.map_some, Option.map_some, hinum ip hc]

theorem Linked.resolve {d i j : ℕ} {name : Str} {es : List Str} {major minor : Short}
    (h : Linked s d name i tFile major minor s')
    (hparent : s.view.parent j es = some (d, name))
    (habsent : bound (s.view.dirents d) name = none) (hfree : (s.view.dino i).type = 0)
    (hpos : 0 < i) (hlt : i < 65536) : s'.view.resolve j es = some i := by
  have hstep (a : ℕ) (n : Str) (k : ℕ) (hk : s.view.step a n = some k) :
      s'.view.step a n = some k := by
    rw [View.step_eq] at hk ⊢
    split_ifs at hk with hdir
    by_cases hai : a = i
    · exact absurd (hai ▸ hdir) (by rw [hfree]; decide)
    by_cases had : a = d
    · subst had
      rw [if_pos (by rw [h.type_parent, hdir]), h.dirents]
      have hkey : key name ≠ key n := fun heq => by
        rw [bound_congr heq.symm, habsent] at hk
        cases hk
      rw [bound_link_of_ne (by rw [key_key]; exact hkey), hk]
    · rw [if_pos (by rw [h.dino_of_ne a hai had, hdir]),
        View.dirents_congr (h.bytes_of_ne a hai had), hk]
  obtain ⟨hlast, hres, hdir⟩ := View.parent_eq_some_iff.mp hparent
  have hdir' : (s'.view.dino d).type = tDir := by rw [h.type_parent, hdir]
  have hne : es ≠ [] := fun hnil => by simp [hnil] at hlast
  rw [View.resolve_eq_parent hne,
    View.parent_eq_some_iff.mpr ⟨hlast, View.resolve_mono hstep hres, hdir'⟩, Option.bind_some,
    View.step_eq, if_pos hdir', h.dirents, bound_link_self habsent hpos hlt]

/-- `sys_open` has opened a file for writing: descriptor `fd` is that of the open file `f`, which
stands at the start of the file in entry `ip` of the inode cache. The path leads to it, and its
bytes are those that the path led to before; if it led nowhere, there are none. -/
structure Opened (me : P) (s : State P) (path : Str) (fd : Fin nOfile) (f : Fin nFile) (ip : Slot)
    (t : State P) : Prop where
  sb : t.sb = s.sb
  store : StoreOk t
  lock : ∀ jp, (t.icache jp).lock = none
  ref : 0 < (t.icache ip).ref
  inum : ∀ jp, 0 < (s.icache jp).ref → (t.icache jp).inum = (s.icache jp).inum
  cwd : (t.proc me).cwd = (s.proc me).cwd
  ofile : (t.proc me).ofile fd = some f
  file : t.ftable f = ⟨.inode, 1, false, true, ip, 0⟩
  type_eq : (t.view.dino (t.icache ip).inum).type = tFile
  keep : 1 < (t.icache ip).ref ∨ (t.view.dino (t.icache ip).inum).nlink ≠ 0
  resolve : t.view.resolve (s.start me path) (components path) = some (t.icache ip).inum
  bytes : t.view.bytes (t.icache ip).inum = (s.contents me path).getD []

namespace Opened

variable {path : Str} {fd : Fin nOfile}

theorem writing (h : Opened me s path fd f ip t) :
    Writing t f ip ((s.contents me path).getD []) 0 t where
  sb := rfl
  proc := rfl
  store := h.store
  lock := h.lock
  ref _ := rfl
  inum _ := rfl
  ftable := by
    refine (update_eq_self_iff.mpr ?_).symm
    rw [h.file]
    rfl
  fields := rfl
  bytes := h.bytes
  dino_of_ne _ _ := rfl
  bytes_of_ne _ _ := rfl

theorem contents (hq : Quiescent s me) (h : Opened me s path fd f ip t)
    (hw : Writing t f ip new off s') {s'' : State P} (hview : s''.view = s'.view)
    (hcwd : (s''.proc me).cwd = (s'.proc me).cwd)
    (hinum : ∀ jp, (s''.icache jp).inum = (s'.icache jp).inum) :
    s''.contents me path = some new := by
  have hstart : s''.start me path = s.start me path := by
    refine State.start_congr ?_ (fun jp hjp => ?_) path
    · rw [hcwd, hw.proc, h.cwd]
    · obtain ⟨ip', hip', hpos, -⟩ := hq.cwd
      obtain rfl := Option.some.inj (hip'.symm.trans hjp)
      rw [hinum, hw.inum, h.inum _ hpos]
  have hstep (j : ℕ) (n : Str) (k : ℕ) (hk : t.view.step j n = some k) :
      s'.view.step j n = some k := by
    rw [View.step_eq] at hk ⊢
    split_ifs at hk with hdir
    have hj : j ≠ (t.icache ip).inum := fun heq => by
      rw [heq, h.type_eq] at hdir
      exact absurd hdir (by decide)
    rw [if_pos (by rw [hw.dino_of_ne j hj, hdir]), View.dirents_congr (hw.bytes_of_ne j hj), hk]
  rw [State.contents, hstart, hview, View.resolve_mono hstep h.resolve, Option.map_some, hw.bytes]

end Opened

variable [DecidableEq P]

theorem Quiescent.create_file (hq : Quiescent s me) (path : Str) :
    Wpx me (fun _ => True) (Fs.create me path tFile 0 0) (fun r s' => ∀ ip, r = some ip →
      Alone me s (oneRef (some ip)) {ip} s' ∧
      (s'.view.dino (s'.icache ip).inum).type = tFile ∧
      (1 < (s'.icache ip).ref ∨ (s'.view.dino (s'.icache ip).inum).nlink ≠ 0) ∧
      s'.view.resolve (s.start me path) (components path) = some (s'.icache ip).inum ∧
      s'.view.bytes (s'.icache ip).inum = (s.contents me path).getD []) s := by
  refine (hq.create path 0 0 (by decide)).mono fun r s' hr ip hip => ?_
  subst hip
  rcases hr with ⟨hr, -⟩ | ⟨jp, hr, -, hf⟩ | ⟨jp, d, name, hr, hc⟩
  · cases hr
  · cases hr
    obtain ⟨-, -, hlive⟩ := hq.named_resolve (hq.named_start path) hf.resolve
    refine ⟨hf.held.toAlone, ?_, ?_, ?_, ?_⟩
    · rw [hf.held.view, hf.type_eq]
    · rw [hf.held.view, hf.held.ref, oneRef_self]
      exact (hf.held.kept rfl hlive).imp_left (by omega)
    · rw [hf.held.view, hf.resolve]
    · rw [hf.held.view, State.contents, hf.resolve]
      rfl
  · cases hr
    have hl := hc.linked (by decide)
    have hlt : (s'.icache ip).inum < 65536 := by
      have hpos : 0 < (s'.icache ip).ref := hc.alone.ref_pos (by rw [oneRef_self]; omega)
      exact (hc.alone.store.cache.inum_lt ip hpos).trans_le
        hc.alone.store.disk.ordered.ninodes_le
    refine ⟨hc.alone, ?_, .inr ?_, hl.resolve hc.parent hc.absent hc.free hc.pos hlt, ?_⟩
    · rw [hl.dino]
    · rw [hl.dino]
      decide
    · rw [hl.bytes, State.contents, Vacant.resolve_eq_none ⟨d, name, hc.parent, hc.absent⟩]
      rfl

theorem Quiescent.sysOpen (hq : Quiescent s me) (path : Str) :
    Wpx me (fun _ => True) (Fs.sysOpen me (some path) (oCreate ||| oWronly)) (fun r t => 0 ≤ r →
      ∃ fd f ip, r = ((fd : Fin nOfile) : ℕ) ∧ Opened me s path fd f ip t) s := by
  simp only [Fs.sysOpen, wpx_bind, wpx_lift, beginOp, wp_modify, openInode]
  rw [if_pos (by decide)]
  refine Wpx.mono ((hq.record .beginOp).create_file path) fun r s₁ hr => ?_
  cases r with
  | none => exact fun hneg => absurd hneg (by decide)
  | some ip =>
    obtain ⟨h, htype, hkeep, hresolve, hbytes⟩ := hr ip rfl
    change s₁.view.resolve (s.start me path) (components path) = _ at hresolve
    change _ = (s.contents me path).getD [] at hbytes
    have hpos : 0 < (s₁.icache ip).ref := h.ref_pos (by rw [oneRef_self]; omega)
    simp only [wpx_bind, wpx_lift]
    refine filealloc_wp (fun _ => ?_) fun f hf => ?_
    · simp only [wpx_bind]
      exact (Wpx.trivial ..).mono fun _ _ _ hneg => absurd hneg (by decide)
    simp only [wpx_bind, wpx_lift]
    refine fdalloc_wp (fun _ => ?_) fun fd hfd => ?_
    · simp only [wpx_bind]
      exact (Wpx.trivial ..).mono fun _ _ _ => (Wpx.trivial ..).mono fun _ _ _ hneg =>
        absurd hneg (by decide)
    simp only [wpx_bind, wpx_lift]
    refine Wpx.mono (wpx_iunlock ?_ ?_) fun _ s₂ hs₂ => ?_
    · exact h.lock_some (Finset.mem_singleton_self ip)
    · exact hpos
    subst hs₂
    have h' := h.unlocked hpos
    simp only [endOp, wp_modify, pure_eq_ret, wpx_ret]
    refine fun _ => ⟨fd, f, ip, rfl, ?_⟩
    exact
      { sb := h.sb
        store := h'.store.congr rfl rfl rfl
        lock := fun jp => (h'.lock jp).trans (if_neg (by simp))
        ref := by simpa using hpos
        inum := h'.inum
        cwd := by simp [Proc.withFd, h.proc]
        ofile := by simp [Proc.withFd]
        file := by simp
        type_eq := by simpa using htype
        keep := by simpa using hkeep
        resolve := by simpa using hresolve
        bytes := by simpa using hbytes }

end Dave.Fs
