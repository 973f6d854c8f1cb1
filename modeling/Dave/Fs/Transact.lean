import Dave.Fs.Image
import Dave.Lib.Observe

/-!
# Transactions

Every call changes the disk in transactions: between `begin_op` and `end_op` of the same process,
which alternate. This file follows each process by an automaton with two states, inside and outside
of a transaction.

Two places need the invariant of all processes. `fileread` calls `readi` outside of a transaction,
and `readi` would allocate a block if the file had a hole. When no descriptor is free, `sys_open`
closes the file it has just allocated while it is in a transaction, and `fileclose` would begin
another one if that file had an inode.
-/

namespace Dave.Fs

open Interleave

variable {P : Type} {b c : Bool}

/-- What a process may do inside and outside of a transaction. -/
def transact : Bool → Action → Option Bool
  | false, .beginOp => some true
  | true, .endOp => some false
  | _, .beginOp => none
  | _, .endOp => none
  | true, _ => some true
  | false, _ => none

variable (P) in
/-- The automaton that follows the transactions of a process: `true` is inside of one. -/
def transactions : Observer (State P) Slot P Action Bool where
  trace := State.trace
  trace_setOwner _ _ _ := rfl
  init := false
  next := transact
  Good s := StoreOk s ∧ FilesOk s
  Ready s ip := 0 < (s.icache ip).ref

/-! ### Code without lock operations -/

/-- Code that may run in a transaction and stays in it. -/
abbrev Works {α : Type} (m : M P α) : Prop := (transactions P).Code true m true

/-- Code that adds nothing to the trace. -/
abbrev Silent {α : Type} (m : M P α) : Prop := ∀ b, (transactions P).Code b m b

section Code

theorem logWrite_works (b : ℕ) (data : Block) : Works (logWrite b data : M P Unit) :=
  .action (fun _ => rfl) rfl

theorem balloc_works : Works (balloc : M P ℕ) := by
  refine .bind (.action (fun _ => rfl) rfl) fun _ => .bind .read fun s => ?_
  split
  · exact (logWrite_works _ _).bind fun _ => (logWrite_works _ _).bind fun _ => .ret _
  · exact .fail _

theorem bfree_works (b : ℕ) : Works (bfree b : M P Unit) :=
  .bind .read fun _ => .ite (fun _ => logWrite_works _ _) fun _ => .fail _

theorem iupdate_works (ip : Slot) : Works (iupdate ip : M P Unit) :=
  .bind (.action (fun _ => rfl) rfl) fun _ => .bind .read fun _ => logWrite_works _ _

theorem modifyInode_silent (ip : Slot) (f : Dinode → Dinode) :
    Silent (modifyInode ip f : M P Unit) := fun _ => .silent fun _ => rfl

theorem iget_silent (dev inum : ℕ) : Silent (iget dev inum : M P Slot) := by
  intro b
  refine .bind .read fun s => ?_
  split
  · exact .bind (.silent fun _ => rfl) fun _ => .ret _
  · split
    · exact .bind (.silent fun _ => rfl) fun _ => .ret _
    · exact .fail _

theorem ialloc_works (dev : ℕ) (type : Short) : Works (ialloc dev type : M P Slot) := by
  refine .bind (.action (fun _ => rfl) rfl) fun _ => .bind .read fun s => ?_
  split
  · exact (logWrite_works _ _).bind fun _ => iget_silent _ _ _
  · exact .fail _

theorem idup_silent (ip : Slot) : Silent (idup ip : M P Slot) :=
  fun _ => .bind (.silent fun _ => rfl) fun _ => .ret _

theorem addrOrAlloc_works (ip : Slot) (k : Fin (nDirect + 1)) : Works (addrOrAlloc ip k : M P ℕ) :=
  .bind .read fun _ => .ite
    (fun _ => balloc_works.bind fun _ => (modifyInode_silent ip _ _).bind fun _ => .ret _)
    fun _ => .ret _

theorem bmap_works (ip : Slot) (bn : ℕ) : Works (bmap ip bn : M P ℕ) := by
  unfold bmap
  split
  · exact addrOrAlloc_works _ _
  · refine .ite (fun _ => ?_) fun _ => .fail _
    refine (addrOrAlloc_works _ _).bind fun _ => .bind (.bind .read fun _ => .ret _) fun _ => ?_
    exact .ite (fun _ => balloc_works.bind fun _ => (logWrite_works _ _).bind fun _ => .ret _)
      fun _ => .ret _

theorem itrunc_works (ip : Slot) : Works (itrunc ip : M P Unit) := by
  have hend : Works (do modifyInode ip fun d => { d with size := 0 }; iupdate ip : M P Unit) :=
    (modifyInode_silent ip _ _).bind fun _ => iupdate_works ip
  refine .bind (.forM fun i => .bind .read fun _ => .ite ?_ fun _ => .ret _) fun _ =>
    .bind .read fun _ => .ite (fun _ => ?_) fun _ => hend
  · exact fun _ => (bfree_works _).bind fun _ => modifyInode_silent ip _ _
  · refine .bind (.bind .read fun _ => .ret _) fun bp => .bind
      (.forM fun j => .ite (fun _ => bfree_works _) fun _ => .ret _) fun _ => ?_
    exact (bfree_works _).bind fun _ => (modifyInode_silent ip _ _).bind fun _ => hend

theorem readLoop_works (ip : Slot) (fuel off n : ℕ) : Works (readLoop ip fuel off n : M P _) := by
  induction fuel generalizing off n with
  | zero => exact .ret _
  | succ fuel ih =>
    exact .ite (fun _ => .ret _) fun _ => (bmap_works _ _).bind fun _ =>
      .bind (.bind .read fun _ => .ret _) fun _ => (ih _ _).bind fun _ => .ret _

theorem readData_works (ip : Slot) (off n : Word) : Works (readData ip off n : M P _) :=
  .bind .read fun _ => .ite (fun _ => .ret _) fun _ => (readLoop_works _ _ _ _).bind fun _ => .ret _

theorem writeLoop_works (ip : Slot) (fuel off : ℕ) (src : List Byte) :
    Works (writeLoop ip fuel off src : M P Unit) := by
  induction fuel generalizing off src with
  | zero => exact .ret _
  | succ fuel ih =>
    exact .ite (fun _ => .ret _) fun _ => (bmap_works _ _).bind fun _ =>
      .bind (.bind .read fun _ => .ret _) fun _ => (logWrite_works _ _).bind fun _ => ih _ _

theorem writeData_works (ip : Slot) (src : List Byte) (off : Word) :
    Works (writeData ip src off : M P (Option ℕ)) :=
  .bind .read fun _ => .ite (fun _ => .ret _) fun _ => .ite (fun _ => .ret _) fun _ =>
    (writeLoop_works _ _ _ _).bind fun _ => .ite
      (fun _ => (modifyInode_silent ip _ _).bind fun _ => (iupdate_works ip).bind fun _ => .ret _)
      fun _ => .ret _

theorem fill_silent (ip : Slot) : Silent (fill ip : M P Unit) :=
  fun _ => .bind .read fun _ => .ite
    (fun _ => .bind (.silent fun _ => rfl) fun _ => .ite (fun _ => .fail _) fun _ => .ret _)
    fun _ => .ret _

theorem iputFree_works (ip : Slot) : Works (iputFree ip : M P Unit) :=
  .bind .read fun _ => .ite (fun _ => .ite (fun _ => (itrunc_works ip).bind fun _ =>
    (modifyInode_silent ip _ _).bind fun _ => (iupdate_works ip).bind fun _ =>
      .silent fun _ => rfl) fun _ => .ret _) fun _ => .ret _

theorem iputDrop_silent (ip : Slot) : Silent (iputDrop ip : M P Unit) :=
  fun _ => .silent fun _ => rfl

theorem readDirent_works (dp : Slot) (off : ℕ) (short : Panic) :
    Works (readDirent dp off short : M P Dirent) := by
  refine (readData_works _ _ _).bind fun o => ?_
  cases o with
  | none => exact .fail _
  | some bs => exact .ite (fun _ => .ret _) fun _ => .fail _

theorem dirlookupLoop_works (dp : Slot) (name : Str) (size fuel off : ℕ) :
    Works (dirlookupLoop dp name size fuel off : M P _) := by
  induction fuel generalizing off with
  | zero => exact .ret _
  | succ fuel ih =>
    exact .ite (fun _ => (readDirent_works _ _ _).bind fun _ => .ite (fun _ => .ret _)
      fun _ => ih _)
      fun _ => .ret _

theorem dirlookup_works (dp : Slot) (name : Str) : Works (dirlookup dp name : M P _) := by
  refine .bind .read fun s => .ite (fun _ => .fail_bind _ _) fun _ =>
    (dirlookupLoop_works _ _ _ _ _).bind fun o => ?_
  cases o with
  | none => exact .ret _
  | some x => exact (iget_silent _ _ _).bind fun _ => .ret _

theorem emptyLoop_works (dp : Slot) (size fuel off : ℕ) :
    Works (emptyLoop dp size fuel off : M P ℕ) := by
  induction fuel generalizing off with
  | zero => exact .ret _
  | succ fuel ih =>
    exact .ite (fun _ => (readDirent_works _ _ _).bind fun _ => .ite (fun _ => .ret _)
      fun _ => ih _)
      fun _ => .ret _

theorem addEntry_works (dp : Slot) (name : Str) (inum : ℕ) :
    Works (addEntry dp name inum : M P Unit) :=
  .bind .read fun _ => (emptyLoop_works _ _ _ _).bind fun _ => (writeData_works _ _ _).bind fun _ =>
    .ite (fun _ => .fail _) fun _ => .ret _

theorem isdiremptyLoop_works (dp : Slot) (size fuel off : ℕ) :
    Works (isdiremptyLoop dp size fuel off : M P Bool) := by
  induction fuel generalizing off with
  | zero => exact .ret _
  | succ fuel ih =>
    exact .ite (fun _ => (readDirent_works _ _ _).bind fun _ => .ite (fun _ => .ret _)
      fun _ => ih _)
      fun _ => .ret _

theorem isFull_works (ip : Slot) : Works (isFull ip : M P Bool) :=
  .bind .read fun _ => .ite
    (fun _ => .bind (.bind .read fun _ => isdiremptyLoop_works _ _ _ _) fun _ =>
    .ret _) fun _ => .ret _

theorem setFields_works (ip : Slot) (f : Dinode → Dinode) :
    Works (do modifyInode ip f; iupdate ip : M P Unit) :=
  (modifyInode_silent ip f _).bind fun _ => iupdate_works ip

theorem eraseEntry_works (dp ip : Slot) (off : ℕ) : Works (eraseEntry dp ip off : M P Unit) :=
  (writeData_works _ _ _).bind fun _ => .ite (fun _ => .fail_bind _ _) fun _ => .bind .read fun _ =>
    .ite (fun _ => setFields_works dp _) fun _ => .ret _

theorem argfd_silent [DecidableEq P] (me : P) (fd : ℤ) : Silent (argfd me fd) := by
  refine fun _ => .bind .read fun s => ?_
  split
  · exact .ret _
  · exact .ret _

theorem setOfile_silent [DecidableEq P] (p : P) (fd : Fin nOfile) (f : Option (Fin nFile)) :
    Silent (setOfile p fd f) := fun _ => .silent fun _ => rfl

theorem fdalloc_silent [DecidableEq P] (me : P) (f : Fin nFile) : Silent (fdalloc me f) := by
  refine fun _ => .bind .read fun s => ?_
  dsimp only
  split
  · exact (setOfile_silent _ _ _ _).bind fun _ => .ret _
  · exact .ret _

theorem filedup_silent (f : Fin nFile) : Silent (filedup f : M P Unit) :=
  fun _ => .bind .read fun _ => .ite (fun _ => .fail_bind _ _) fun _ => .silent fun _ => rfl

theorem filedrop_silent (f : Fin nFile) : Silent (filedrop f : M P (Option File)) :=
  fun _ => .bind .read fun _ => .ite (fun _ => .fail_bind _ _) fun _ => .ite
    (fun _ => .bind (.silent fun _ => rfl) fun _ => .ret _)
    fun _ => .bind (.silent fun _ => rfl) fun _ => .ret _

theorem forkFiles_silent [DecidableEq P] (me np : P) : Silent (forkFiles me np) := by
  refine fun _ => .forM fun fd => .bind .read fun s => ?_
  split
  · exact .ret _
  · exact (filedup_silent _ _).bind fun _ => setOfile_silent _ _ _ _

theorem beginOp_code : (transactions P).Code false beginOp true := .action (fun _ => rfl) rfl

theorem endOp_code : (transactions P).Code true endOp false := .action (fun _ => rfl) rfl

end Code

/-! ### Code in a transaction -/

/-- The program takes process `p` from inside (`true`) or outside (`false`) of a transaction to
inside or outside. -/
abbrev Goes {α : Type} (p : P) (b : Bool) (prog : Kernel P α) (c : Bool) : Prop :=
  (transactions P).Takes p b prog c

section Inside

open Observer.Takes

variable {me : P}

theorem look_goes {α : Type} (f : State P → α) : Goes me b (.lift do return f (← get)) b :=
  lift (.bind .read fun _ => .ret _)

theorem ilock_goes (ip : Slot) (site : Site) : Goes me b (ilock ip site) b :=
  (lift (.bind .read fun _ => .ite (fun _ => .fail _) fun _ => .ret _)).bind fun _ =>
    (acq ip site).bind fun _ => lift (fill_silent ip _)

theorem iput_goes (ip : Slot) : Goes me true (iput ip) true :=
  (lift (.action (fun _ => rfl) rfl)).bind fun _ => (acq ip _).bind fun _ =>
    (lift (iputFree_works ip)).bind fun _ => (rel ip).bind fun _ => yield.bind fun _ =>
      lift (iputDrop_silent ip _)

theorem endWith_goes (r : ℤ) : Goes me true (endWith r) false :=
  (lift endOp_code).bind fun _ => ret _

variable [DecidableEq P]

theorem iunlock_goes (ip : Slot) : Goes me b (iunlock me ip) b :=
  (lift (.bind .read fun _ => .ite (fun _ => .fail _) fun _ => .ret _)).bind fun _ => rel ip

theorem iunlockput_goes (ip : Slot) : Goes me true (iunlockput me ip) true :=
  (iunlock_goes ip).bind fun _ => iput_goes ip

theorem readi_goes (ip : Slot) (off n : Word) (input : Option (List Byte)) :
    Goes me true (readi me ip off n input) true :=
  (look_goes _).bind fun _ => .ite (fun _ => .ite
    (fun _ => (iunlock_goes ip).bind fun _ => (ilock_goes ip _).bind fun _ => ret _) fun _ => ret _)
    fun _ => lift (readData_works ip off n)

theorem writei_goes (ip : Slot) (src : List Byte) (off : Word) :
    Goes me true (writei me ip src off) true :=
  (look_goes _).bind fun _ => .ite (fun _ => .ite
    (fun _ => (iunlock_goes ip).bind fun _ => (ilock_goes ip _).bind fun _ => ret _) fun _ => ret _)
    fun _ => lift (writeData_works ip src off)

omit [DecidableEq P] in
theorem dirlink_goes (dp : Slot) (name : Str) (inum : ℕ) :
    Goes me true (dirlink dp name inum) true := by
  refine (lift (dirlookup_works dp name)).bind fun o => ?_
  cases o with
  | none => exact (lift (addEntry_works dp name inum)).bind fun _ => ret _
  | some x => exact (iput_goes x.1).bind fun _ => ret _

theorem namexLoop_goes (parent : Bool) (names : List Str) (ip : Slot) :
    Goes me true (namexLoop me parent names ip) true := by
  induction names generalizing ip with
  | nil => exact .ite (fun _ => (iput_goes ip).bind fun _ => ret _) fun _ => ret _
  | cons name rest ih =>
    refine (ilock_goes ip _).bind fun _ => (look_goes _).bind fun d => .ite
      (fun _ => (iunlockput_goes ip).bind fun _ => ret _) fun _ => .ite
        (fun _ => (iunlock_goes ip).bind fun _ => ret _) fun _ =>
          (lift (dirlookup_works ip name)).bind fun o => ?_
    cases o with
    | none => exact (iunlockput_goes ip).bind fun _ => ret _
    | some x => exact (iunlockput_goes ip).bind fun _ => ih x.1

theorem namex_goes (path : Str) (parent : Bool) : Goes me true (namex me path parent) true := by
  refine (lift (.ite (fun _ => iget_silent _ _ _) fun _ => .bind .read fun s => ?_)).bind
    fun ip => namexLoop_goes parent _ ip
  split
  · exact idup_silent _ _
  · exact .fail _

theorem namei_goes (path : Str) : Goes me true (namei me path) true :=
  (namex_goes path false).bind fun _ => ret _

theorem putAndEnd_goes (ip : Slot) (r : ℤ) : Goes me true (do iunlockput me ip; endWith r) false :=
  (iunlockput_goes ip).bind fun _ => endWith_goes r

theorem linkBad_goes (ip : Slot) : Goes me true (linkBad me ip) false :=
  (ilock_goes ip _).bind fun _ => (lift (setFields_works ip _)).bind fun _ => putAndEnd_goes ip _

omit [DecidableEq P] in
theorem createDots_goes (dp ip : Slot) : Goes me true (createDots dp ip) true := by
  refine (lift ?_).bind fun x => (dirlink_goes ip _ _).bind fun _ => .ite
    (fun _ => (dirlink_goes ip _ _).bind fun _ => .ite (fun _ => ret _) fun _ => fail _)
    fun _ => fail _
  exact (modifyInode_silent dp _ _).bind fun _ => (iupdate_works dp).bind fun _ =>
    .bind .read fun _ => .ret _

/-! ### Opening a file -/

/-- The program stays in the transaction, and files that are not in use have no inode at the end if
it returns one. -/
abbrev Opens (me : P) (prog : Kernel P (Option Slot)) : Prop :=
  ∀ s, (transactions P).Twp me prog (fun o c s => c = true ∧ (o ≠ none → FilesOk s)) true s

omit [DecidableEq P] in
theorem opens_none : Opens me (.ret none) := fun _ => ⟨rfl, fun h => absurd rfl h⟩

variable {s : State P}

omit [DecidableEq P] in
theorem look_twp {α : Type} {Q : α → Bool → State P → Prop} {f : State P → α} (h : Q (f s) b s) :
    (transactions P).Twp me (.lift do return f (← get) : Kernel P α) Q b s :=
  (Observer.twp_lift ..).mpr ⟨b, .of_trace_eq rfl b, h⟩

omit [DecidableEq P] in
theorem fill_ftable (ip : Slot) (s : State P) :
    Wp (fun _ => True) (fill ip) (fun _ s' => s'.ftable = s.ftable) s := by
  simp only [fill, wp_bind, wp_get, wp_ite, wp_modify, wp_throw, wp_pure]
  split_ifs
  all_goals rfl

omit [DecidableEq P] in
theorem ilock_files (ip : Slot) (site : Site) (s : State P) :
    (transactions P).Twp me (ilock ip site) (fun _ c s => c = b ∧ FilesOk s) b s := by
  refine Observer.Takes.bind_twp (lift (c := b)
    (.bind .read fun _ => .ite (fun _ => .fail _) fun _ => .ret _)) (fun _ _ => ?_) s
  rw [Observer.twp_bind]
  intro s' hgood _
  rw [Observer.Twp, Observer.twp_lift]
  refine ((fill_silent ip b _).and (fill_ftable ip _)).mono fun _ s'' hs => ⟨b, hs.1, rfl, ?_⟩
  intro f
  rw [hs.2]
  exact hgood.2 f

omit [DecidableEq P] in
theorem iput_files (ip : Slot) (s : State P) :
    (transactions P).Twp me (iput ip) (fun _ c s => c = true ∧ FilesOk s) true s := by
  refine Observer.Takes.bind_twp (lift (.action (fun _ => rfl) rfl)) (fun _ => ?_) s
  refine (acq ip _).bind_twp fun _ => (lift (iputFree_works ip)).bind_twp fun _ =>
    (rel ip).bind_twp fun _ s => ?_
  rw [Observer.twp_bind]
  intro s' hgood
  rw [Observer.Twp, Observer.twp_lift]
  exact ⟨true, .of_trace_eq rfl true, rfl, hgood.2⟩

theorem iunlockput_files (ip : Slot) (s : State P) :
    (transactions P).Twp me (iunlockput me ip) (fun _ c s => c = true ∧ FilesOk s) true s :=
  (iunlock_goes ip).bind_twp (fun _ => iput_files ip) s

theorem create_opens (path : Str) (type major minor : Short) :
    Opens me (create me path type major minor) := by
  refine (namex_goes path true).bind_twp fun o => ?_
  cases o with
  | none => exact opens_none
  | some x =>
    obtain ⟨dp, name⟩ := x
    refine (ilock_goes dp _).bind_twp fun _ => (lift (dirlookup_works dp name)).bind_twp fun o => ?_
    cases o with
    | some x =>
      refine (iunlockput_goes dp).bind_twp fun _ s => ?_
      rw [Observer.twp_bind]
      refine (ilock_files x.1 _ s).mono fun _ c s' hs => ?_
      obtain ⟨rfl, hfiles⟩ := hs
      rw [Observer.twp_bind]
      refine look_twp ?_
      split_ifs
      · exact ⟨rfl, fun _ => hfiles⟩
      · exact (iunlockput_goes x.1).bind_twp (fun _ => opens_none) s'
    | none =>
      refine (lift (.bind .read fun _ => ialloc_works _ type)).bind_twp fun ip =>
        (ilock_goes ip _).bind_twp fun _ => (lift (setFields_works ip _)).bind_twp fun _ => ?_
      have hlast : Opens me (do
          let inum ← .lift do return ((← get).icache ip).inum
          if ← dirlink dp name inum then
            iunlockput me dp
            return some ip
          else
            .fail .createDirlink) := by
        refine (look_goes _).bind_twp fun inum => (dirlink_goes dp name inum).bind_twp fun r => ?_
        cases r with
        | false => exact fun _ => trivial
        | true =>
          intro s
          rw [if_pos rfl, Observer.twp_bind]
          refine (iunlockput_files dp s).mono fun _ c s' hs => ?_
          exact ⟨hs.1, fun _ => hs.2⟩
      intro s
      split_ifs
      · exact (createDots_goes dp ip).bind_twp (fun _ => hlast) s
      · exact hlast s

theorem openInode_opens (path : Str) (omode : Word) : Opens me (openInode me path omode) := by
  intro s
  rw [openInode]
  split_ifs
  · exact create_opens path tFile 0 0 s
  · refine (namei_goes path).bind_twp (fun o => ?_) s
    cases o with
    | none => exact opens_none
    | some ip =>
      intro s
      rw [Observer.twp_bind]
      refine (ilock_files ip _ s).mono fun _ c s' hs => ?_
      obtain ⟨rfl, hfiles⟩ := hs
      rw [Observer.twp_bind]
      refine look_twp ?_
      split_ifs
      · exact (iunlockput_goes ip).bind_twp (fun _ => opens_none) s'
      · exact ⟨rfl, fun _ => hfiles⟩

omit [DecidableEq P] in
theorem fileclose_fresh {f : Fin nFile} (href : (s.ftable f).ref = 1)
    (ht : (s.ftable f).type = .none) :
    (transactions P).Twp me (fileclose f) (fun _ c _ => c = b) b s := by
  rw [fileclose, Observer.twp_bind, Observer.twp_lift]
  refine filedrop_wp trivial (fun hmany => absurd href hmany.ne') fun _ =>
    ⟨b, .of_trace_eq rfl b, ?_⟩
  simp only [ht]
  rfl

theorem sysOpen_goes (path : Option Str) (omode : Word) :
    Goes me false (sysOpen me path omode) false := by
  cases path with
  | none => exact ret _
  | some path =>
    refine (lift beginOp_code).bind fun _ s => ?_
    rw [Observer.twp_bind]
    refine (openInode_opens path omode s).mono fun o c s hs => ?_
    obtain ⟨rfl, hfiles⟩ := hs
    cases o with
    | none => exact endWith_goes _ s
    | some ip =>
      rw [Observer.twp_bind, Observer.twp_lift]
      refine filealloc_wp (fun _ => ⟨true, .of_trace_eq rfl true, putAndEnd_goes ip _ s⟩)
        fun f href => ⟨true, .of_trace_eq rfl true, ?_⟩
      rw [Observer.twp_bind, Observer.twp_lift]
      refine fdalloc_wp (fun _ => ⟨true, .of_trace_eq rfl true, ?_⟩)
        fun fd _ => ⟨true, .of_trace_eq rfl true, ?_⟩
      · rw [Observer.twp_bind]
        refine (fileclose_fresh (b := true) ?_ ?_).mono fun _ c s' hc => ?_
        · simp
        · simpa using hfiles (by simp) f href
        · subst hc
          exact putAndEnd_goes ip _ s'
      · refine (iunlock_goes ip).bind_twp (fun _ => ?_) _
        refine (lift endOp_code).bind_twp fun _ => ?_
        exact Observer.Takes.bind (lift (.silent fun _ => rfl)) fun _ => ret _

/-! ### The other calls -/

theorem sysLink_goes (old new : Option Str) : Goes me false (sysLink me old new) false := by
  cases old with
  | none => exact ret _
  | some old =>
    cases new with
    | none => exact ret _
    | some new =>
      refine (lift beginOp_code).bind fun _ => (namei_goes old).bind fun o => ?_
      cases o with
      | none => exact endWith_goes _
      | some ip =>
        refine (ilock_goes ip _).bind fun _ => (look_goes _).bind fun i =>
          .ite (fun _ => putAndEnd_goes ip _) fun _ => ?_
        refine (lift (setFields_works ip _)).bind fun _ => (iunlock_goes ip).bind fun _ =>
          (namex_goes new true).bind fun o => ?_
        cases o with
        | none => exact linkBad_goes ip
        | some x =>
          obtain ⟨dp, name⟩ := x
          have hbad : Goes me true (do iunlockput me dp; linkBad me ip) false :=
            (iunlockput_goes dp).bind fun _ => linkBad_goes ip
          refine (ilock_goes dp _).bind fun _ => (look_goes _).bind fun ddev =>
            .ite (fun _ => hbad) fun _ => (dirlink_goes dp name _).bind fun r =>
              .ite (fun _ => ?_) fun _ => hbad
          exact (iunlockput_goes dp).bind fun _ => (iput_goes ip).bind fun _ => endWith_goes _

theorem sysUnlink_goes (path : Option Str) : Goes me false (sysUnlink me path) false := by
  cases path with
  | none => exact ret _
  | some path =>
    refine (lift beginOp_code).bind fun _ => (namex_goes path true).bind fun o => ?_
    cases o with
    | none => exact endWith_goes _
    | some x =>
      obtain ⟨dp, name⟩ := x
      refine (ilock_goes dp _).bind fun _ => .ite (fun _ => putAndEnd_goes dp _) fun _ =>
        (lift (dirlookup_works dp name)).bind fun o => ?_
      cases o with
      | none => exact putAndEnd_goes dp _
      | some x =>
        obtain ⟨ip, off⟩ := x
        refine (ilock_goes ip _).bind fun _ => (look_goes _).bind fun d =>
          .ite (fun _ => fail _) fun _ => (lift (isFull_works ip)).bind fun r =>
            .ite (fun _ => (iunlockput_goes ip).bind fun _ => putAndEnd_goes dp _) fun _ => ?_
        exact (lift (eraseEntry_works dp ip off)).bind fun _ => (iunlockput_goes dp).bind fun _ =>
          (lift (setFields_works ip _)).bind fun _ => putAndEnd_goes ip _

theorem makeNode_goes (path : Option Str) (type major minor : Short) :
    Goes me false (makeNode me path type major minor) false := by
  refine (lift beginOp_code).bind fun _ => ?_
  cases path with
  | none => exact endWith_goes _
  | some path =>
    intro s
    rw [Observer.twp_bind]
    refine (create_opens path type major minor s).mono fun o c s hs => ?_
    obtain ⟨rfl, -⟩ := hs
    cases o with
    | none => exact endWith_goes _ s
    | some ip => exact putAndEnd_goes ip _ s

theorem sysChdir_goes (path : Option Str) : Goes me false (sysChdir me path) false := by
  refine (lift beginOp_code).bind fun _ => ?_
  cases path with
  | none => exact endWith_goes _
  | some path =>
    refine (namei_goes path).bind fun o => ?_
    cases o with
    | none => exact endWith_goes _
    | some ip =>
      refine (ilock_goes ip _).bind fun _ => (look_goes _).bind fun d =>
        .ite (fun _ => putAndEnd_goes ip _) fun _ => (iunlock_goes ip).bind fun _ =>
          (look_goes _).bind fun o => ?_
      cases o with
      | none => exact fail _
      | some cwd =>
        exact (iput_goes cwd).bind fun _ => (lift endOp_code).bind fun _ =>
          .bind (lift (.silent fun _ => rfl)) fun _ => ret _

theorem sysExec_goes (path : Option Str) (reads : List (Word × Word × Option (List Byte))) :
    Goes me false (sysExec me path reads) false := by
  have hreads (ip : Slot) : Goes me true (execReads me ip reads) true := by
    induction reads with
    | nil => exact ret _
    | cons x reads ih =>
      refine (readi_goes ip _ _ _).bind fun o => ?_
      cases o with
      | none => exact ret _
      | some bs => exact ih
  cases path with
  | none => exact ret _
  | some path =>
    refine (lift beginOp_code).bind fun _ => (namei_goes path).bind fun o => ?_
    cases o with
    | none => exact endWith_goes _
    | some ip =>
      exact (ilock_goes ip _).bind fun _ => (hreads ip).bind fun _ => putAndEnd_goes ip _

omit [DecidableEq P] in
theorem fileclose_goes (f : Fin nFile) : Goes me false (fileclose f) false := by
  refine (lift (filedrop_silent f _)).bind fun o => ?_
  cases o with
  | none => exact ret _
  | some ff =>
    cases hff : ff.type with
    | none =>
      simp only [hff]
      exact ret _
    | inode =>
      simp only [hff]
      exact (lift beginOp_code).bind fun _ => (iput_goes ff.ip).bind fun _ => lift endOp_code

theorem sysClose_goes (fd : ℤ) : Goes me false (sysClose me fd) false := by
  refine (lift (argfd_silent me fd _)).bind fun o => ?_
  cases o with
  | none => exact ret _
  | some x => exact (lift (setOfile_silent me x.1 none _)).bind fun _ =>
      (fileclose_goes x.2).bind fun _ => ret _

theorem closeAll_goes (fds : List (Fin nOfile)) : Goes me false (closeAll me fds) false := by
  induction fds with
  | nil => exact ret _
  | cons fd fds ih =>
    refine (look_goes _).bind fun o => ?_
    cases o with
    | none => exact ih
    | some f => exact (fileclose_goes f).bind fun _ =>
        (lift (setOfile_silent me fd none _)).bind fun _ => ih

theorem sysExit_goes : Goes me false (sysExit me) false := by
  refine (closeAll_goes _).bind fun _ => (lift beginOp_code).bind fun _ =>
    (look_goes _).bind fun o => ?_
  cases o with
  | none => exact fail _
  | some cwd =>
    exact (iput_goes cwd).bind fun _ => (lift endOp_code).bind fun _ =>
      .bind (lift (.silent fun _ => rfl)) fun _ => ret _

/-! ### Reading and writing files -/

omit [DecidableEq P] in
theorem ilock_loaded (ip : Slot) (site : Site) (s : State P) :
    (transactions P).Twp me (ilock ip site) (fun _ c s => c = b ∧ DiskOk s ∧ Loaded s ip) b s := by
  refine Observer.Takes.bind_twp (lift (c := b)
    (.bind .read fun _ => .ite (fun _ => .fail _) fun _ => .ret _)) (fun _ _ => ?_) s
  rw [Observer.twp_bind]
  intro s' hgood hpos
  have hpos' : 0 < (s'.icache ip).ref := hpos
  rw [Observer.Twp, Observer.twp_lift]
  have hfill := fill_locked (E := fun _ => True) hgood.1 hpos' me fun _ => trivial
  refine ((fill_silent ip b _).and hfill).mono fun _ s'' hs => ⟨b, hs.1, rfl, ?_⟩
  obtain ⟨-, rfl, ht⟩ := hs
  exact ⟨(hgood.1.lockRead hpos' ht me).disk, hgood.1.loaded_lockRead hpos' ht me⟩

/-- Reading an inode that is a copy of the one on the disk: a file has no holes, so that nothing is
allocated. -/
theorem readi_loaded {ip : Slot} (hdisk : DiskOk s) (hl : Loaded s ip) (off n : Word)
    (input : Option (List Byte)) :
    (transactions P).Twp me (readi me ip off n input) (fun _ c _ => c = b) b s := by
  rw [readi, Observer.twp_bind]
  refine look_twp ?_
  split_ifs with hdev hdriver
  · exact ((iunlock_goes ip).bind fun _ => (ilock_goes ip _).bind fun _ => ret _) s
  · exact ret _ s
  · rw [Observer.twp_lift, wp_of_ok (readData_eq hdisk hl hdev off n)]
    exact ⟨b, .of_trace_eq rfl b, rfl⟩

theorem fileread_goes (f : Fin nFile) (n : Word) (input : Option (List Byte)) :
    Goes me false (fileread me f n input) false := by
  refine (look_goes _).bind fun ff => .ite (fun _ => ret _) fun _ => ?_
  cases ff.type with
  | none => exact fail _
  | inode =>
    intro s
    rw [Observer.twp_bind]
    refine (ilock_loaded ff.ip _ s).mono fun _ c s hs => ?_
    obtain ⟨rfl, hdisk, hl⟩ := hs
    rw [Observer.twp_bind]
    refine look_twp ?_
    rw [Observer.twp_bind]
    refine (readi_loaded hdisk hl _ n input).mono fun r c s' hc => ?_
    subst hc
    rw [Observer.twp_bind, Observer.twp_lift]
    exact ⟨false, .of_trace_eq rfl false, (iunlock_goes ff.ip).bind_twp (fun _ => ret _) _⟩

theorem sysRead_goes (fd : ℤ) (n : Word) (input : Option (List Byte)) :
    Goes me false (sysRead me fd n input) false := by
  refine (lift (argfd_silent me fd _)).bind fun o => ?_
  cases o with
  | none => exact ret _
  | some x =>
    refine (fileread_goes x.2 n input).bind fun r => ?_
    cases r with
    | none | some bs => exact ret _

theorem filewriteLoop_goes (f : Fin nFile) (fuel : ℕ) (src : List Byte) :
    Goes me false (filewriteLoop me f fuel src) false := by
  induction fuel generalizing src with
  | zero => exact ret _
  | succ fuel ih =>
    refine .ite (fun _ => ret _) fun _ => (lift beginOp_code).bind fun _ =>
      (look_goes _).bind fun ip => (ilock_goes ip _).bind fun _ => (look_goes _).bind fun off =>
        (writei_goes ip _ off).bind fun r => .bind (lift (.silent fun _ => rfl)) fun _ =>
          (iunlock_goes ip).bind fun _ => (lift endOp_code).bind fun _ => ?_
    cases r with
    | none => exact ret _
    | some n => exact .ite (fun _ => fail _) fun _ => ih _

theorem sysWrite_goes (fd : ℤ) (src : List Byte) : Goes me false (sysWrite me fd src) false := by
  refine (lift (argfd_silent me fd _)).bind fun o => ?_
  cases o with
  | none => exact ret _
  | some x =>
    refine (look_goes _).bind fun ff => .ite (fun _ => ret _) fun _ => ?_
    cases ff.type with
    | none => exact fail _
    | inode => exact (filewriteLoop_goes x.2 _ src).bind fun _ => ret _

theorem sysFstat_goes (fd : ℤ) : Goes me false (sysFstat me fd) false := by
  refine (lift (argfd_silent me fd _)).bind fun o => ?_
  cases o with
  | none => exact ret _
  | some x =>
    refine (look_goes _).bind fun ff => ?_
    cases ff.type with
    | none => exact ret _
    | inode =>
      exact (ilock_goes ff.ip _).bind fun _ => (iunlock_goes ff.ip).bind fun _ => ret _

theorem sysDup_goes (fd : ℤ) : Goes me false (sysDup me fd) false := by
  refine lift ((argfd_silent me fd _).bind fun o => ?_)
  cases o with
  | none => exact .ret _
  | some x =>
    refine (fdalloc_silent me x.2 _).bind fun o => ?_
    cases o with
    | none => exact .ret _
    | some fd => exact (filedup_silent x.2 _).bind fun _ => .ret _

theorem sysFork_goes (child : Option P) : Goes me false (sysFork me child) false := by
  cases child with
  | none => exact lift (.ret _)
  | some np =>
    refine lift (.bind .read fun _ => .ite (fun _ => .ret _) fun _ =>
      (forkFiles_silent me np _).bind fun _ => .bind .read fun s => ?_)
    split
    · exact .fail _
    · exact (idup_silent _ _).bind fun _ => .bind (.silent fun _ => rfl) fun _ => .ret _

theorem sysWait_goes (q : P) : Goes me false (sysWait q) false :=
  lift (.bind .read fun _ => .ite (fun _ => .bind (.silent fun _ => rfl) fun _ => .ret _)
    fun _ => .ret _)

theorem Call.goes (call : Call P) : Goes me false (call.prog me) false := by
  cases call with
  | link old new => exact sysLink_goes old new
  | unlink path => exact sysUnlink_goes path
  | «open» path omode => exact sysOpen_goes path omode
  | mkdir path => exact makeNode_goes path tDir 0 0
  | mknod path major minor => exact makeNode_goes path tDev _ _
  | chdir path => exact sysChdir_goes path
  | dup fd => exact sysDup_goes fd
  | read fd n input => exact sysRead_goes fd n input
  | write fd src => exact sysWrite_goes fd src
  | close fd => exact sysClose_goes fd
  | fstat fd => exact sysFstat_goes fd
  | fork child => exact sysFork_goes child
  | exit => exact sysExit_goes
  | wait q => exact sysWait_goes q
  | exec path reads => exact sysExec_goes path reads

end Inside

/-! ### All runs -/

/-- `log.outstanding`, after the actions of a trace. -/
def outstanding (t : List Action) : ℤ := t.count .beginOp - t.count .endOp

/-- No `log_write` of a trace finds that no transaction is outstanding. -/
def Covered : List Action → Prop
  | [] => True
  | a :: t => (∀ b, a = .logWrite b → 1 ≤ outstanding t) ∧ Covered t

theorem outstanding_cons {a : Action} (h : transact b a = some c) (t : List Action) :
    outstanding (a :: t) = outstanding t + c.toNat - b.toNat := by
  cases a <;> cases b <;> simp [transact] at h <;> subst h <;> simp [outstanding] <;> omega

/-- The actions of one process, after a trace in which the other processes have begun `k`
transactions that they have not ended. -/
theorem covered_append {t l : List Action} {k : ℤ} (hk : 0 ≤ k) (ht : Covered t)
    (hout : outstanding t = k + b.toNat) (h : (transactions P).advance b l = some c) :
    Covered (l ++ t) ∧ outstanding (l ++ t) = k + c.toNat := by
  induction l generalizing c with
  | nil =>
    obtain rfl := Option.some.inj h
    exact ⟨ht, hout⟩
  | cons a l ih =>
    obtain ⟨d, hd, hnext⟩ := Option.bind_eq_some_iff.mp h
    obtain ⟨hcov, hout'⟩ := ih hd
    refine ⟨⟨fun x ha => ?_, hcov⟩, ?_⟩
    · subst ha
      cases d with
      | false => exact absurd hnext (by simp [transactions, transact])
      | true =>
        have hpos : 1 ≤ outstanding (l ++ t) := by
          rw [hout', Bool.toNat_true]
          omega
        exact hpos
    · rw [List.cons_append, outstanding_cons hnext, hout']
      omega

section Runs

variable [Fintype P] [DecidableEq P] {ok : KernelSys P → P → Prop} {m₀ m : KernelSys P}
  {log : P → List Action}

theorem Reached.good (h : Reached ok m₀ m) :
    (transactions P).Good m.shared ∧ ∀ p l t, request (m.thread p) = some (l, t) →
      (transactions P).Ready m.shared l := by
  obtain ⟨⟨gs, hinv⟩, -⟩ := h.inv
  have hbase := Global.base hinv.shared
  exact ⟨⟨hbase.store, hbase.table.none_of_zero⟩,
    fun p l t hreq => hbase.ref_pos (hinv.label p l t hreq)⟩

theorem advance_log (hrest : Rested m₀) (hs : Resting m₀.shared)
    (h : Logged State.trace Started ok m₀ m log) (p : P) :
    ∃ b, (transactions P).advance false (log p) = some b ∧
      (transactions P).Follows p b (m.thread p) := by
  refine Observer.sound (O := transactions P) hrest.2
    (fun m hm => Reached.good ⟨hrest, hs, hm⟩) (fun s p prog hstart => ?_) h p
  obtain ⟨-, call, rfl⟩ := hstart
  exact call.goes

theorem exists_trace_eq (hrest : Rested m₀) (hs : Resting m₀.shared)
    (h : Logged State.trace Started ok m₀ m log) {p : P} {m' : KernelSys P}
    (hstep : Step Started ok p m m') : ∃ l, m'.shared.trace = l ++ m.shared.trace := by
  obtain ⟨b, -, hfollows⟩ := advance_log hrest hs h p
  obtain ⟨hgood, hready⟩ := Reached.good ⟨hrest, hs, h.reachable⟩
  obtain ⟨c, ⟨l, hl, -⟩, -⟩ := Observer.step_follows hstep hgood (hready p)
    (fun s p prog ⟨_, call, hcall⟩ => hcall ▸ call.goes) hfollows
  exact ⟨l, hl⟩

theorem Reached.exists_logged (h : Reached ok m₀ m) :
    ∃ log, Logged State.trace Started ok m₀ m log := by
  obtain ⟨hrest, hs, hreach⟩ := h
  induction hreach with
  | refl => exact ⟨_, .refl⟩
  | tail _ hstep ih =>
    obtain ⟨log, hlog⟩ := ih
    obtain ⟨p, hstep⟩ := hstep
    obtain ⟨l, hl⟩ := exists_trace_eq hrest hs hlog hstep
    exact ⟨_, hlog.tail hstep hl⟩

theorem covered_trace (hrest : Rested m₀) (hs : Resting m₀.shared)
    (h : Logged State.trace Started ok m₀ m log) :
    ∃ t, m.shared.trace = t ++ m₀.shared.trace ∧ Covered t ∧ outstanding t =
      ∑ p, (((transactions P).advance false (log p)).getD false).toNat := by
  induction h with
  | refl => exact ⟨[], rfl, trivial, by simp [outstanding, Observer.advance]⟩
  | @tail m m' log q l h hstep hl ih =>
    obtain ⟨t, ht, hcov, hout⟩ := ih
    obtain ⟨b, hb, -⟩ := advance_log hrest hs h q
    obtain ⟨c, hc, -⟩ := advance_log hrest hs (h.tail hstep hl) q
    have hc' := hc
    rw [Function.update_self, Observer.advance_append, hb] at hc'
    rw [← Finset.sum_erase_add _ _ (Finset.mem_univ q), hb] at hout
    obtain ⟨hcov', hout'⟩ := covered_append (Int.natCast_nonneg _) hcov (by exact_mod_cast hout) hc'
    refine ⟨l ++ t, by rw [hl, ht, List.append_assoc], hcov', ?_⟩
    rw [hout', ← Finset.sum_erase_add _ _ (Finset.mem_univ q), hc]
    have hother : ∀ p ∈ Finset.univ.erase q,
        (((transactions P).advance false (Function.update log q (l ++ log q) p)).getD false).toNat =
          (((transactions P).advance false (log p)).getD false).toNat := fun p hp => by
      rw [Function.update_of_ne (Finset.ne_of_mem_erase hp)]
    rw [Finset.sum_congr rfl hother]
    push_cast
    rfl

/-- In every run of the processes from a file system in order, what a process has done alternates
between `begin_op` and `end_op`, beginning with `begin_op`, with all its `iput`, `log_write`,
`balloc`, `ialloc` and `iupdate` in between, and the last transaction has been ended when its call
has returned. Every step adds to the trace what its process does, and no `log_write` finds that no
transaction is outstanding. -/
theorem transactions_balanced (hrest : Rested m₀) (hs : Resting m₀.shared)
    (h : Logged State.trace Started ok m₀ m log) :
    (∀ p, ∃ b, (transactions P).advance false (log p) = some b ∧ (m.thread p = none → b = false)) ∧
    (∀ p m', Step Started ok p m m' → ∃ l, m'.shared.trace = l ++ m.shared.trace) ∧
    ∃ t, m.shared.trace = t ++ m₀.shared.trace ∧ Covered t := by
  refine ⟨fun p => ?_, fun p m' hstep => exists_trace_eq hrest hs h hstep, ?_⟩
  · obtain ⟨b, hb, hfollows⟩ := advance_log hrest hs h p
    refine ⟨b, hb, fun hp => ?_⟩
    rwa [hp] at hfollows
  · obtain ⟨t, ht, hcov, -⟩ := covered_trace hrest hs h
    exact ⟨t, ht, hcov⟩

end Runs

/-- Two processes make a file and a directory at the same time, and unlink them. -/
theorem transactions_balanced_image :
    ∃ m log, Logged State.trace Started (fun _ _ => True) imageSys m log ∧ m.panic = none ∧
      50 ≤ m.shared.trace.length ∧
      (∀ p, (transactions (Fin 2)).advance false (log p) = some false) ∧
      ∃ t, m.shared.trace = t ++ image.trace ∧ Covered t := by
  have hplay : (play (fun _ _ => true) imageSys [.call 0 (.open (some [97]) oCreate), .steps 0 3,
      .call 1 (.mkdir (some [98])), .steps 0 100, .steps 1 100, .call 0 (.write 0 [1, 2, 3]),
      .steps 0 2, .call 1 (.unlink (some [97])), .steps 1 4, .steps 0 100, .steps 1 100,
      .call 0 (.unlink (some [98])), .steps 0 100, .call 0 .exit, .steps 0 100]).any (fun m =>
        m.panic = none && (m.thread 0).isNone && (m.thread 1).isNone &&
          50 ≤ m.shared.trace.length) = true := by
    decide +kernel
  obtain ⟨m, hm, hcheck⟩ := (Option.any_eq_true _ _).mp hplay
  simp only [Bool.and_eq_true, Option.isNone_iff_eq_none, decide_eq_true_eq] at hcheck
  obtain ⟨⟨⟨hpanic, h0⟩, h1⟩, hlen⟩ := hcheck
  have hreach := reached_of_play hm
  simp only at hreach
  have hidle : ∀ p, m.thread p = none := Fin.forall_fin_two.mpr ⟨h0, h1⟩
  obtain ⟨log, hlog⟩ := hreach.exists_logged
  obtain ⟨hbal, -, hcov⟩ := transactions_balanced hreach.rested hreach.resting hlog
  refine ⟨m, log, hlog, hpanic, hlen, fun p => ?_, hcov⟩
  obtain ⟨b, hb, hout⟩ := hbal p
  rw [hb, hout (hidle p)]

end Dave.Fs
