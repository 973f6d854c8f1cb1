import Dave.Bcache.Transparent
import Dave.Ide.Driver
import Mathlib.Tactic.IntervalCases

/-!
# The IDE driver and the memory disk

Both drivers implement the same block store. The driver of `ide.c` serves the calls of `iderw` in
the order in which they came to its queue, each of them once; what it does to the disk and to the
buffers is what `memide.c` does when it is called for the same requests in that order.
-/

namespace Dave.Ide

open Option Function

open Bcache (Buf nBuf)
open Linked (Chain)

variable {P : Type}

/-! ### Registers -/

theorem sector_regs {dev sector : Word} (h : sector.toNat < 2 ^ 28) :
    (regs dev sector).sector = sector := by
  have hhigh : ∀ j (hj : j < 32), 28 ≤ j → sector[j] = false := fun j hj hle => by
    rw [← BitVec.getLsbD_eq_getElem, BitVec.getLsbD]
    exact Nat.testBit_lt_two_pow (lt_of_lt_of_le h (Nat.pow_le_pow_right (by decide) hle))
  refine BitVec.eq_of_getLsbD_eq fun i hi => ?_
  simp only [Regs.sector, regs, BitVec.getLsbD_or, BitVec.getLsbD_shiftLeft,
    BitVec.getLsbD_setWidth, BitVec.getLsbD_and, BitVec.getLsbD_ushiftRight]
  interval_cases i <;> simp [hhigh]

theorem drive_regs (sector : Word) : (regs 1 sector).drive = true := by
  simp [Regs.drive, regs]

/-! ### The memory disk -/

/-- The call is for a block that both drivers accept, from the process that has locked the buffer,
and there is something to do. -/
structure Request.Ok (disksize : ℕ) (r : Request P) : Prop where
  lock : r.content.lock = some r.proc
  todo : ¬ (r.content.valid = true ∧ r.content.dirty = false)
  dev : r.content.dev = 1
  lt_fsSize : r.content.blockno.toNat < fsSize
  lt_disksize : r.content.blockno.toNat < disksize

/-- The contents of a buffer after it has been written to the disk or read from it. -/
def served (disk : Word → Block) (b : Buf P) : Buf P :=
  { b with
    data := if b.dirty then b.data else disk b.blockno
    valid := true
    dirty := false }

/-- The disk after a buffer has been written to it, if it was dirty. -/
def written (disk : Word → Block) (b : Buf P) : Word → Block :=
  if b.dirty then update disk b.blockno b.data else disk

section Mem

variable [DecidableEq P] {t t' t'' : Bcache.State P} {r : Request P} {rs : List (Request P)}
  {b : Buf P} {bs : List (Buf P)}

theorem memCall_eq (hr : r.Ok t.disksize) : ∃ t', memCall t r = .ok (served t.disk r.content, t') ∧
    t'.disk = written t.disk r.content ∧ t'.disksize = t.disksize := by
  have hrange : ¬ t.disksize ≤ r.content.blockno.toNat := not_le.mpr hr.lt_disksize
  have hiderw : Bcache.iderw r.proc r.buf (t.setBuf r.buf r.content) =
      .ok (r.content.dirty, t.setBuf r.buf { r.content with dirty := false }) := by
    refine eq_ok_of_wp ?_
    simp only [Bcache.iderw, wp_bind, wp_get, Bcache.State.setBuf_buf, update_self,
      Bcache.State.setBuf_disksize]
    rw [if_neg (not_not.mpr hr.lock), if_neg hr.todo, if_neg (not_not.mpr hr.dev), if_neg hrange]
    refine ⟨rfl, ?_⟩
    simp [Bcache.State.setBuf]
  have hcopy : Bcache.iderwCopy r.buf r.content.dirty
      (t.setBuf r.buf { r.content with dirty := false }) = .ok ((),
        ({ t with disk := written t.disk r.content } : Bcache.State P).setBuf r.buf
          (served t.disk r.content)) := by
    refine eq_ok_of_wp ?_
    cases hd : r.content.dirty with
    | true | false =>
      refine ⟨rfl, ?_⟩
      simp [Bcache.State.setBuf, written, served, hd]
  refine ⟨({ t with disk := written t.disk r.content } : Bcache.State P).setBuf r.buf
    (served t.disk r.content), ?_, rfl, rfl⟩
  rw [memCall, hiderw]
  simp only [bind, Except.bind, hcopy, pure, Except.pure, Bcache.State.setBuf_buf, update_self]

theorem memRun_snoc (hrs : memRun t rs = .ok (bs, t')) (hr : memCall t' r = .ok (b, t'')) :
    memRun t (rs ++ [r]) = .ok (bs ++ [b], t'') := by
  induction rs generalizing t bs with
  | nil =>
    obtain ⟨rfl, rfl⟩ : [] = bs ∧ t = t' := by simpa [memRun] using hrs
    simp only [List.nil_append, memRun, hr]
    rfl
  | cons r' rs ih =>
    simp only [memRun, List.cons_append] at hrs ⊢
    cases hcall : memCall t r' with
    | error e =>
      rw [hcall] at hrs
      cases hrs
    | ok x =>
      cases hrest : memRun x.2 rs with
      | error e =>
        rw [hcall] at hrs
        simp only [bind, Except.bind, hrest] at hrs
        cases hrs
      | ok y =>
        rw [hcall] at hrs
        simp only [bind, Except.bind, hrest, pure, Except.pure, Except.ok.injEq,
          Prod.mk.injEq] at hrs
        obtain ⟨rfl, rfl⟩ := hrs
        simp only [bind, Except.bind, ih hrest]
        rfl

end Mem

/-! ### The invariant -/

/-- The calls that have not been served yet. -/
def State.pending (s : State P) : List (Request P) := s.calls.drop s.results.length

/-- What the controller is doing, when `disk` is the disk after the calls that have been served and
the given ones are pending. -/
def Serving (s : State P) (disk : Word → Block) : List (Request P) → Prop
  | [] => s.busy = false ∧ s.disk true = disk
  | r :: _ => s.busy = true ∧ s.disk true = written disk r.content ∧
      (r.content.dirty = false → s.port = disk r.content.blockno)

variable [DecidableEq P]

/-- The invariant of the driver, when the memory disk is `t₀` at first. -/
structure Inv (t₀ : Bcache.State P) (s : State P) : Prop where
  havedisk1 : s.havedisk1 = true
  le : s.results.length ≤ s.calls.length
  queue : Chain s.qnext s.idequeue (s.pending.map (·.buf))
  ok : ∀ r ∈ s.pending, r.Ok t₀.disksize
  content : ∀ r ∈ s.pending, s.buf r.buf = r.content
  /-- the process of a pending call is in the loop of `iderw` -/
  waiting : ∀ k r, s.results.length ≤ k → s.calls[k]? = some r → ∃ a, s.loc r.proc = .wait r.buf k a
  /-- a process in the loop has the lock of its buffer; when the buffer has been served, the process
  is awake and the buffer has not changed -/
  wait : ∀ p i k a, s.loc p = .wait i k a → (s.buf i).lock = some p ∧
    (∃ c, s.calls[k]? = some ⟨p, i, c⟩) ∧
    (k < s.results.length → a = false ∧ s.results[k]? = some (s.buf i))
  done : ∀ b ∈ s.results, b.valid = true ∧ b.dirty = false
  served : ∃ t, memRun t₀ (s.calls.take s.results.length) = .ok (s.results, t) ∧
    t.disksize = t₀.disksize ∧ Serving s t.disk s.pending

omit [DecidableEq P] in
theorem post_of_exec {E : Panic → Prop} {c : D P Unit} {Q : Unit → State P → Prop}
    {s s' : State P} (hc : exec c s = some s') (h : Wp E c Q s) : Q () s' := by
  unfold exec at hc
  cases hrun : c s with
  | error e => simp [hrun] at hc
  | ok x =>
    obtain ⟨u, s₂⟩ := x
    obtain rfl : s₂ = s' := by simpa [hrun] using hc
    exact h.of_ok hrun

section Inv

variable {t₀ : Bcache.State P} {s s' : State P} {p : P} {i : Fin nBuf} {r : Request P}

omit [DecidableEq P] in
theorem mem_pending : r ∈ s.pending ↔ ∃ k, s.results.length ≤ k ∧ s.calls[k]? = some r := by
  rw [State.pending, List.mem_iff_getElem?]
  constructor
  · rintro ⟨k, hk⟩
    rw [List.getElem?_drop] at hk
    exact ⟨_, Nat.le_add_right _ _, hk⟩
  · rintro ⟨k, hle, hk⟩
    exact ⟨k - s.results.length, by rw [List.getElem?_drop, Nat.add_sub_cancel' hle, hk]⟩

namespace Inv

variable {k : ℕ}

variable {E : Panic → Prop}

section

variable (h : Inv t₀ s)

include h

theorem nodup : (s.pending.map (·.buf)).Nodup := by
  refine List.nodup_iff_getElem?_ne_getElem?.mpr fun k l hkl hl heq => ?_
  rw [List.length_map, State.pending, List.length_drop] at hl
  obtain ⟨r, hr⟩ : ∃ r, s.calls[s.results.length + k]? = some r :=
    ⟨_, List.getElem?_eq_getElem (by omega)⟩
  obtain ⟨r', hr'⟩ : ∃ r, s.calls[s.results.length + l]? = some r :=
    ⟨_, List.getElem?_eq_getElem (by omega)⟩
  simp only [List.getElem?_map, State.pending, List.getElem?_drop, hr, hr', map_some,
    some.injEq] at heq
  -- both calls are by the process that has the lock
  obtain ⟨a, ha⟩ := h.waiting _ r (Nat.le_add_right _ _) hr
  obtain ⟨a', ha'⟩ := h.waiting _ r' (Nat.le_add_right _ _) hr'
  have hlock := (h.wait _ _ _ _ ha).1
  rw [heq, (h.wait _ _ _ _ ha').1, some.injEq] at hlock
  rw [hlock] at ha'
  have hindex := ha.symm.trans ha'
  simp only [Loc.wait.injEq] at hindex
  omega

/-- A buffer that is locked by nobody, or by a process that is not in `iderw`, is not in the queue,
and no process waits for it. -/
theorem free (hrun : s.loc p = .run) (hlock : (s.buf i).lock = none ∨ (s.buf i).lock = some p) :
    (∀ r ∈ s.pending, r.buf ≠ i) ∧ ∀ q j k a, s.loc q = .wait j k a → j ≠ i := by
  have hwait : ∀ q j k a, s.loc q = .wait j k a → j ≠ i := by
    rintro q j k a hq rfl
    have hq' := (h.wait q j k a hq).1
    rcases hlock with hl | hl
    · simp [hl] at hq'
    · obtain rfl : p = q := by simpa [hl] using hq'
      simp [hrun] at hq
  refine ⟨fun r hr => ?_, hwait⟩
  obtain ⟨k, hle, hk⟩ := mem_pending.mp hr
  obtain ⟨a, ha⟩ := h.waiting k r hle hk
  exact hwait _ _ _ _ ha

theorem setBuf (hi : (∀ r ∈ s.pending, r.buf ≠ i) ∧ ∀ q j k a, s.loc q = .wait j k a → j ≠ i)
    (b : Buf P) : Inv t₀ (s.setBuf i b) where
  havedisk1 := h.havedisk1
  le := h.le
  queue := h.queue
  ok := h.ok
  content r hr := by
    rw [State.setBuf_buf, update_of_ne (hi.1 r hr)]
    exact h.content r hr
  waiting := h.waiting
  wait q j k a hq := by
    rw [State.setBuf_buf, update_of_ne (hi.2 q j k a hq)]
    exact h.wait q j k a hq
  done := h.done
  served := h.served

theorem setLoc {l : Loc}
    (hpending : ∀ k r, s.results.length ≤ k → s.calls[k]? = some r → r.proc = p →
      ∃ a, l = .wait r.buf k a)
    (hwait : ∀ i k a, l = .wait i k a → (s.buf i).lock = some p ∧
      (∃ c, s.calls[k]? = some ⟨p, i, c⟩) ∧
      (k < s.results.length → a = false ∧ s.results[k]? = some (s.buf i))) :
    Inv t₀ (s.setLoc p l) where
  havedisk1 := h.havedisk1
  le := h.le
  queue := h.queue
  ok := h.ok
  content := h.content
  waiting k r hle hr := by
    by_cases hrp : r.proc = p
    · rw [State.setLoc_loc, hrp, update_self]
      exact hpending k r hle hr hrp
    · rw [State.setLoc_loc, update_of_ne hrp]
      exact h.waiting k r hle hr
  wait q i k a hq := by
    by_cases hqp : q = p
    · subst hqp
      rw [State.setLoc_loc, update_self] at hq
      exact hwait i k a hq
    · rw [State.setLoc_loc, update_of_ne hqp] at hq
      exact h.wait q i k a hq
  done := h.done
  served := h.served

theorem stay {a a' : Bool} (hp : s.loc p = .wait i k a) (ha' : k < s.results.length → a' = false) :
    Inv t₀ (s.setLoc p (.wait i k a')) := by
  refine h.setLoc (fun l r hle hr hrp => ?_) fun j l b hl => ?_
  · obtain ⟨b, hb⟩ := h.waiting l r hle hr
    rw [hrp, hp] at hb
    obtain ⟨rfl, rfl, -⟩ : i = r.buf ∧ k = l ∧ a = b := by simpa using hb
    exact ⟨a', rfl⟩
  · obtain ⟨rfl, rfl, rfl⟩ : i = j ∧ k = l ∧ a' = b := by simpa using hl
    obtain ⟨h1, h2, h3⟩ := h.wait p i k a hp
    exact ⟨h1, h2, fun hk => ⟨ha' hk, (h3 hk).2⟩⟩

/-- The buffer of a process in the loop of `iderw` has been served if and only if its flags say
so. -/
theorem served_iff {a : Bool} (hp : s.loc p = .wait i k a) :
    k < s.results.length ↔ (s.buf i).valid = true ∧ (s.buf i).dirty = false := by
  obtain ⟨-, ⟨c, hc⟩, hres⟩ := h.wait p i k a hp
  constructor
  · exact fun hk => h.done _ (List.mem_of_getElem? (hres hk).2)
  · intro hflags
    by_contra hk
    have hmem : (⟨p, i, c⟩ : Request P) ∈ s.pending := mem_pending.mpr ⟨k, not_lt.mp hk, hc⟩
    rw [h.content _ hmem] at hflags
    exact (h.ok _ hmem).todo hflags

end

theorem wp_test : Wp E (Ide.test p i k) (fun _ s' => s'.buf = s.buf ∧
    (s'.loc p = .run ↔ (s.buf i).valid = true ∧ (s.buf i).dirty = false)) s := by
  simp only [Ide.test, wp_bind, wp_get]
  split_ifs with hflags
  · exact ⟨rfl, by simp [hflags]⟩
  · exact ⟨rfl, by simp [hflags]⟩

theorem wp_test_sleep {Q : Unit → State P → Prop}
    (hflags : ¬ ((s.buf i).valid = true ∧ (s.buf i).dirty = false))
    (hQ : Q () (s.setLoc p (.wait i k true))) : Wp E (Ide.test p i k) Q s := by
  simp only [Ide.test, wp_bind, wp_get]
  rw [if_neg hflags]
  exact hQ

theorem test (h : Inv t₀ s) {a : Bool} (hp : s.loc p = .wait i k a) :
    Wp E (Ide.test p i k) (fun _ s' => Inv t₀ s') s := by
  have hiff := h.served_iff hp
  simp only [Ide.test, wp_bind, wp_get]
  split_ifs with hflags
  · -- it returns
    refine h.setLoc (fun l r hle hr hrp => ?_) fun j l b hl => by simp at hl
    obtain ⟨b, hb⟩ := h.waiting l r hle hr
    rw [hrp, hp] at hb
    obtain ⟨-, rfl, -⟩ : i = r.buf ∧ k = l ∧ a = b := by simpa using hb
    exact absurd (hiff.mpr hflags) (not_lt.mpr hle)
  · exact h.stay hp fun hk => absurd (hiff.mp hk) hflags

end Inv

/-! ### Starting the disk -/

/-- The controller begins to serve a call. -/
def State.started (s : State P) (b : Buf P) : State P :=
  s.command (regs b.dev b.blockno) (if b.dirty then some b.data else none)

omit [DecidableEq P] in
theorem wp_idestart {E : Panic → Prop} {Q : Unit → State P → Prop}
    (hlt : (s.buf i).blockno.toNat < fsSize) (hQ : Q () (s.started (s.buf i))) :
    Wp E (idestart i) Q s := by
  simp only [idestart, wp_bind, wp_get]
  rw [if_neg (not_le.mpr hlt)]
  exact hQ

omit [DecidableEq P] in
theorem serving_started {disk : Word → Block} {disksize : ℕ} (hdisk : s.disk true = disk)
    (hr : r.Ok disksize) (rs : List (Request P)) :
    Serving (s.started r.content) disk (r :: rs) := by
  have hlt : r.content.blockno.toNat < 2 ^ 28 := hr.lt_fsSize.trans (by decide)
  refine ⟨rfl, ?_, fun hclean => ?_⟩
  · simp only [State.started, State.command, hr.dev, drive_regs, sector_regs hlt, written]
    split_ifs with hdirty
    · rw [elim_some, update_self, hdisk]
    · rw [elim_none, hdisk]
  · simp only [State.started, State.command, hr.dev, drive_regs, sector_regs hlt, hclean, hdisk]
    rfl

/-! ### Calls -/

namespace Inv

theorem appended (h : Inv t₀ s) (hrun : s.loc p = .run)
    (hr : Request.Ok t₀.disksize ⟨p, i, s.buf i⟩)
    (hbuf : s'.buf = s.buf) (hdisk1 : s'.havedisk1 = s.havedisk1)
    (hcalls : s'.calls = s.calls ++ [⟨p, i, s.buf i⟩]) (hresults : s'.results = s.results)
    (hqueue : (s'.idequeue, s'.qnext) = Linked.append nBuf s.idequeue s.qnext i)
    (hloc : s'.loc = update s.loc p (.wait i s.calls.length true))
    (hserving : ∀ disk, Serving s disk s.pending →
      Serving s' disk (s.pending ++ [⟨p, i, s.buf i⟩])) : Inv t₀ s' := by
  have hle := h.le
  have hfree := h.free hrun (.inr hr.lock)
  have hpending : s'.pending = s.pending ++ [⟨p, i, s.buf i⟩] := by
    rw [State.pending, State.pending, hcalls, hresults, List.drop_append_of_le_length hle]
  have hmem {r : Request P} (hr' : r ∈ s'.pending) : r ∈ s.pending ∨ r = ⟨p, i, s.buf i⟩ := by
    rw [hpending] at hr'
    simpa using hr'
  -- the calls before the new one
  have hold {k : ℕ} {r : Request P} (hk : s.calls[k]? = some r) : s'.calls[k]? = some r := by
    rw [hcalls, List.getElem?_append_left (List.getElem?_eq_some_iff.mp hk).1, hk]
  have hnew : s'.calls[s.calls.length]? = some ⟨p, i, s.buf i⟩ := by
    rw [hcalls, List.getElem?_concat_length]
  have hcases {k : ℕ} {r : Request P} (hk : s'.calls[k]? = some r) :
      s.calls[k]? = some r ∨ k = s.calls.length ∧ r = ⟨p, i, s.buf i⟩ := by
    rw [hcalls] at hk
    rcases lt_trichotomy k s.calls.length with hlt | rfl | hgt
    · rw [List.getElem?_append_left hlt] at hk
      exact .inl hk
    · rw [List.getElem?_concat_length] at hk
      exact .inr ⟨rfl, (some.inj hk).symm⟩
    · rw [List.getElem?_eq_none (by simp; omega)] at hk
      cases hk
  have hother {q : P} {j : Fin nBuf} {k : ℕ} {a : Bool} (hq : s.loc q = .wait j k a) : q ≠ p := by
    rintro rfl
    rw [hrun] at hq
    cases hq
  refine ⟨hdisk1.trans h.havedisk1, by rw [hresults, hcalls, List.length_append]; omega, ?_,
    fun r hr' => ?_, fun r hr' => ?_, fun k r hk hr' => ?_, fun q j k a hq => ?_, ?_, ?_⟩
  · have hchain := h.queue.append h.nodup
      (show _ ≤ nBuf by simpa using h.nodup.length_le_card)
      (i := i) (by
        rw [List.mem_map]
        rintro ⟨r, hr', rfl⟩
        exact hfree.1 r hr' rfl)
    rw [← hqueue] at hchain
    rw [hpending, List.map_append]
    exact hchain
  · rcases hmem hr' with hr' | rfl
    · exact h.ok r hr'
    · exact hr
  · rw [hbuf]
    rcases hmem hr' with hr' | rfl
    · exact h.content r hr'
    · rfl
  · rw [hresults] at hk
    rw [hloc]
    rcases hcases hr' with hr' | ⟨rfl, rfl⟩
    · obtain ⟨a, ha⟩ := h.waiting k r hk hr'
      exact ⟨a, by rw [update_of_ne (hother ha), ha]⟩
    · exact ⟨true, update_self ..⟩
  · rw [hloc] at hq
    rw [hbuf, hresults]
    by_cases hqp : q = p
    · subst hqp
      rw [update_self] at hq
      obtain ⟨rfl, rfl, rfl⟩ : i = j ∧ s.calls.length = k ∧ true = a := by simpa using hq
      exact ⟨hr.lock, ⟨_, hnew⟩, fun hlt => by omega⟩
    · rw [update_of_ne hqp] at hq
      obtain ⟨h1, ⟨c, hc⟩, h3⟩ := h.wait q j k a hq
      exact ⟨h1, ⟨c, hold hc⟩, h3⟩
  · rw [hresults]
    exact h.done
  · obtain ⟨t, ht, hsize, hserv⟩ := h.served
    refine ⟨t, ?_, hsize, ?_⟩
    · rw [hresults, hcalls, List.take_append_of_le_length hle, ht]
    · rw [hpending]
      exact hserving t.disk hserv

theorem iderw (h : Inv t₀ s) (hrun : s.loc p = .run) (hadm : Admitted t₀.disksize s (.iderw p i)) :
    Wp (fun _ => True) (Ide.iderw p i) (fun _ s' => Inv t₀ s') s := by
  obtain ⟨hlock, hdev, hfs, hsize⟩ := hadm
  simp only [Ide.iderw, wp_bind, wp_get]
  rw [if_neg (not_not.mpr hlock)]
  by_cases htodo : (s.buf i).valid = true ∧ (s.buf i).dirty = false
  · rw [if_pos htodo]
    trivial
  have hr : Request.Ok t₀.disksize ⟨p, i, s.buf i⟩ := ⟨hlock, htodo, hdev, hfs, hsize⟩
  rw [if_neg htodo, if_neg (by simp [h.havedisk1])]
  simp only [wp_bind, wp_get, enqueue, wp_modify, wp_ite]
  cases hpending : s.pending with
  | nil =>
    have hempty : s.idequeue = none := by simpa [hpending, Chain] using h.queue
    simp only [hempty, Linked.append, if_true]
    refine wp_idestart hfs ?_
    refine wp_test_sleep htodo ?_
    refine h.appended hrun hr rfl rfl rfl rfl ?_ rfl fun disk hd => ?_
    · rw [hempty]
      rfl
    · rw [hpending] at hd ⊢
      exact serving_started (r := ⟨p, i, s.buf i⟩) hd.2 hr []
  | cons r rs =>
    have hhead : s.idequeue = some r.buf := by
      have hqueue := h.queue
      rw [hpending] at hqueue
      exact hqueue.1
    have hne : r.buf ≠ i := (h.free hrun (.inr hlock)).1 r (by simp [hpending])
    simp only [hhead, Linked.append, some.injEq, hne, if_false]
    refine wp_test_sleep htodo ?_
    refine h.appended hrun hr rfl rfl rfl rfl ?_ rfl fun disk hd => ?_
    · rw [hhead]
      rfl
    · rw [hpending] at hd ⊢
      exact hd

/-! ### Interrupts -/

theorem finished (h : Inv t₀ s) {rs : List (Request P)} (hpending : s.pending = r :: rs)
    {t : Bcache.State P} (ht : memRun t₀ (s.calls.take s.results.length) = .ok (s.results, t))
    (hsize : t.disksize = t₀.disksize)
    (hbuf : s'.buf = update s.buf r.buf (Ide.served t.disk r.content))
    (hdisk1 : s'.havedisk1 = s.havedisk1) (hcalls : s'.calls = s.calls)
    (hresults : s'.results = s.results ++ [Ide.served t.disk r.content])
    (hnext : s'.qnext = s.qnext) (hhead : s'.idequeue = s.qnext r.buf)
    (hloc : ∀ q, s'.loc q = (s.loc q).wakeup r.buf)
    (hserving : Serving s' (written t.disk r.content) rs) : Inv t₀ s' := by
  have hlen : s.results.length < s.calls.length := by
    by_contra hcon
    rw [State.pending, List.drop_eq_nil_of_le (not_lt.mp hcon)] at hpending
    cases hpending
  have hdrop := List.drop_eq_getElem_cons hlen
  rw [← State.pending, hpending] at hdrop
  obtain ⟨hr, hrs⟩ := List.cons.inj hdrop
  have hcall : s.calls[s.results.length]? = some r := by rw [List.getElem?_eq_getElem hlen, ← hr]
  have hlen' : s'.results.length = s.results.length + 1 := by
    rw [hresults, List.length_append, List.length_singleton]
  have hpending' : s'.pending = rs := by rw [State.pending, hcalls, hlen', ← hrs]
  have hmem : r ∈ s.pending := hpending ▸ List.mem_cons_self
  have hcontent := h.content r hmem
  have hnodup := h.nodup
  rw [hpending, List.map_cons, List.nodup_cons] at hnodup
  obtain ⟨a₀, ha₀⟩ := h.waiting _ r le_rfl hcall
  have hlock₀ := (h.wait _ _ _ _ ha₀).1
  refine ⟨hdisk1.trans h.havedisk1, by rw [hlen', hcalls]; omega, ?_, fun r' hr' => ?_,
    fun r' hr' => ?_, fun k r' hk hr' => ?_, fun q j k a hq => ?_, fun b hb => ?_, ?_⟩
  · have hqueue := h.queue
    rw [hpending] at hqueue
    rw [hnext, hhead, hpending']
    exact hqueue.2
  · rw [hpending'] at hr'
    exact h.ok r' (hpending ▸ List.mem_cons_of_mem r hr')
  · rw [hpending'] at hr'
    have hne : r'.buf ≠ r.buf := fun heq => hnodup.1 (heq ▸ List.mem_map_of_mem hr')
    rw [hbuf, update_of_ne hne]
    exact h.content r' (hpending ▸ List.mem_cons_of_mem r hr')
  · rw [hlen'] at hk
    rw [hcalls] at hr'
    obtain ⟨a, ha⟩ := h.waiting k r' (by omega) hr'
    exact ⟨_, by rw [hloc, ha, Loc.wakeup]⟩
  · rw [hloc] at hq
    cases hq₀ : s.loc q with
    | run => simp [hq₀, Loc.wakeup] at hq
    | wait j₀ k₀ a₁ =>
      rw [hq₀] at hq
      obtain ⟨rfl, rfl, rfl⟩ : j₀ = j ∧ k₀ = k ∧ (if j₀ = r.buf then false else a₁) = a := by
        simpa [Loc.wakeup] using hq
      obtain ⟨h1, h2, h3⟩ := h.wait q j₀ k₀ a₁ hq₀
      rw [hbuf, hcalls, hresults, List.length_append, List.length_singleton]
      by_cases hj : j₀ = r.buf
      · -- this is the process of the call that has been served
        subst hj
        obtain rfl : q = r.proc := by simpa [h1] using hlock₀
        obtain ⟨-, rfl, -⟩ : r.buf = r.buf ∧ s.results.length = k₀ ∧ a₀ = a₁ := by
          simpa using ha₀.symm.trans hq₀
        refine ⟨?_, h2, fun _ => ⟨if_pos rfl, ?_⟩⟩
        · rw [update_self, ← h1, hcontent]
          rfl
        · rw [List.getElem?_concat_length, update_self]
      · rw [update_of_ne hj]
        refine ⟨h1, h2, fun hk => ?_⟩
        have hkn : k₀ < s.results.length := by
          refine lt_of_le_of_ne (by omega) ?_
          rintro rfl
          obtain ⟨c, hc⟩ := h2
          rw [hcall, some.injEq] at hc
          exact hj (by rw [hc])
        obtain ⟨h4, h5⟩ := h3 hkn
        exact ⟨by rw [if_neg hj, h4], by rw [List.getElem?_append_left hkn, h5]⟩
  · rw [hresults] at hb
    rcases List.mem_append.mp hb with hb | hb
    · exact h.done b hb
    · obtain rfl := List.mem_singleton.mp hb
      exact ⟨rfl, rfl⟩
  · obtain ⟨t', hmemcall, hdisk', hsize'⟩ := memCall_eq (hsize ▸ h.ok r hmem)
    refine ⟨t', ?_, hsize'.trans hsize, ?_⟩
    · rw [hlen', hcalls, hresults, List.take_add_one, hcall]
      exact memRun_snoc ht hmemcall
    · rw [hpending', hdisk']
      exact hserving

theorem interrupt (h : Inv t₀ s) (hbusy : s.busy = true) {E : Panic → Prop} :
    Wp E (ideintr) (fun _ s' => Inv t₀ s') { s with busy := false } := by
  obtain ⟨t, ht, hsize, hserving⟩ := h.served
  cases hpending : s.pending with
  | nil =>
    rw [hpending] at hserving
    have hidle := hserving.1
    rw [hbusy] at hidle
    cases hidle
  | cons r rs =>
    rw [hpending] at hserving
    obtain ⟨-, hdisk, hport⟩ := hserving
    have hmem : r ∈ s.pending := hpending ▸ List.mem_cons_self
    have hcontent := h.content r hmem
    have hqueue := h.queue
    rw [hpending] at hqueue
    have hhead : s.idequeue = some r.buf := hqueue.1
    -- the buffer that is read or written
    let s₁ : State P :=
      { s with
        busy := false
        idequeue := s.qnext r.buf
        buf := update s.buf r.buf (Ide.served t.disk r.content)
        loc := fun q => (s.loc q).wakeup r.buf
        results := s.results ++ [Ide.served t.disk r.content] }
    suffices hstart : Wp E (startNext (s.qnext r.buf)) (fun _ s' => Inv t₀ s') s₁ by
      simp only [ideintr, wp_bind, wp_get, hhead, wp_modify, wakeup, modifyBuf]
      cases hd : r.content.dirty with
      | true =>
        have hserved : Ide.served t.disk r.content =
            { r.content with valid := true, dirty := false } := by simp [Ide.served, hd]
        simp only [s₁, hserved] at hstart
        simp only [hcontent, hd, Bool.true_eq_false, ↓reduceIte, wp_bind, wp_get, wp_modify,
          State.setBuf, update_self]
        exact hstart
      | false =>
        have hserved : Ide.served t.disk r.content =
            { r.content with data := s.port, valid := true, dirty := false } := by
          simp [Ide.served, hd, hport hd]
        simp only [s₁, hserved] at hstart
        simp only [hcontent, hd, ↓reduceIte, wp_bind, wp_get, wp_modify, State.setBuf,
          update_self, update_idem]
        exact hstart
    cases rs with
    | nil =>
      have hlast : s.qnext r.buf = none := hqueue.2
      rw [hlast]
      exact h.finished hpending ht hsize rfl rfl rfl rfl rfl rfl (fun _ => rfl) ⟨rfl, hdisk⟩
    | cons r' rs =>
      have hnext : s.qnext r.buf = some r'.buf := hqueue.2.1
      have hmem' : r' ∈ s.pending := by simp [hpending]
      have hne : r'.buf ≠ r.buf := by
        have hnodup := h.nodup
        simp only [hpending, List.map_cons, List.nodup_cons, List.mem_cons, not_or] at hnodup
        exact Ne.symm hnodup.1.1
      have hbuf : s₁.buf r'.buf = r'.content :=
        (update_of_ne hne ..).trans (h.content r' hmem')
      rw [hnext]
      refine wp_idestart (by rw [hbuf]; exact (h.ok r' hmem').lt_fsSize) ?_
      rw [hbuf]
      exact h.finished hpending ht hsize rfl rfl rfl rfl rfl rfl (fun _ => rfl)
        (serving_started hdisk (h.ok r' hmem') rs)

theorem step {e : Event P} (h : Inv t₀ s) (hadm : Admitted t₀.disksize s e)
    (hs : Ide.step s e = some s') : Inv t₀ s' := by
  cases e with
  | acquiresleep p i =>
    obtain ⟨⟨hrun, hlock⟩, hs'⟩ := ite_none_right_eq_some.mp hs
    obtain rfl := some.inj hs'
    exact h.setBuf (h.free hrun (.inl hlock)) _
  | releasesleep p i =>
    obtain ⟨⟨hrun, hlock⟩, hs'⟩ := ite_none_right_eq_some.mp hs
    obtain rfl := some.inj hs'
    exact h.setBuf (h.free hrun (.inr hlock)) _
  | change p i b =>
    obtain ⟨⟨hrun, hlock⟩, hs'⟩ := ite_none_right_eq_some.mp hs
    obtain rfl := some.inj hs'
    exact h.setBuf (h.free hrun hlock) _
  | iderw p i =>
    obtain ⟨hrun, hc⟩ := ite_none_right_eq_some.mp hs
    exact post_of_exec hc (h.iderw hrun hadm)
  | wake p =>
    simp only [Ide.step] at hs
    split at hs
    · next i k a hp =>
      obtain rfl := some.inj hs
      exact h.stay hp fun _ => rfl
    · cases hs
  | resume p =>
    simp only [Ide.step] at hs
    split at hs
    · next i k hp => exact post_of_exec hs (h.test (E := fun _ => True) hp)
    · cases hs
  | interrupt =>
    obtain ⟨hbusy, hc⟩ := ite_none_right_eq_some.mp hs
    exact post_of_exec hc (h.interrupt (E := fun _ => True) hbusy)

theorem initial (h : Initial s) (hdisk : t₀.disk = s.disk true) : Inv t₀ s := by
  have hpending : s.pending = [] := by rw [State.pending, h.calls, List.drop_nil]
  refine ⟨h.havedisk1, by simp [h.results, h.calls], ?_, ?_, ?_, ?_, ?_, ?_, ?_⟩
  · rw [hpending]
    exact h.idequeue
  · simp [hpending]
  · simp [hpending]
  · simp [h.calls]
  · simp [h.loc]
  · simp [h.results]
  · refine ⟨t₀, ?_, rfl, ?_⟩
    · rw [h.results, h.calls]
      rfl
    · rw [hpending]
      exact ⟨h.busy, hdisk.symm⟩

end Inv

end Inv

/-! ### Refinement -/

variable {s₀ s : State P} {t₀ : Bcache.State P} {es : List (Event P)}

/-- **The driver refines the memory disk.** After every run the queue is that of the calls that have
not been served yet, in the order in which they were appended, and no buffer is in it twice; the
controller is at work if and only if there is one. The memory disk, called for the requests that
have been served in that order, leaves the same contents in the buffers, all of which are valid and
not dirty, and when the controller is not at work, on the disk. A process in `iderw` returns if and
only if its call has been served; then it is awake, and finds in the buffer what the memory disk has
left there. -/
theorem ide_refines_memide (h₀ : Initial s₀) (hdisk : t₀.disk = s₀.disk true)
    (hrun : Runs t₀.disksize s₀ es s) :
    ∃ t, memRun t₀ (s.calls.take s.results.length) = .ok (s.results, t) ∧
      (s.busy = false → s.disk true = t.disk) ∧
      (s.busy = true ↔ s.results.length < s.calls.length) ∧
      Chain s.qnext s.idequeue (s.pending.map (·.buf)) ∧ (s.pending.map (·.buf)).Nodup ∧
      (∀ b ∈ s.results, b.valid = true ∧ b.dirty = false) ∧
      ∀ p i k a, s.loc p = .wait i k a → (∃ c, s.calls[k]? = some ⟨p, i, c⟩) ∧
        (k < s.results.length → a = false ∧ s.results[k]? = some (s.buf i)) ∧
        ∀ s', step s (.resume p) = some s' →
          s'.buf = s.buf ∧ (s'.loc p = .run ↔ k < s.results.length) := by
  have h : Inv t₀ s := hrun.invariant (.initial h₀ hdisk) fun h hadm hs => h.step hadm hs
  obtain ⟨t, ht, -, hserving⟩ := h.served
  have hbusy : s.busy = true ↔ s.pending ≠ [] := by
    cases hpending : s.pending with
    | nil | cons r rs =>
      rw [hpending] at hserving
      simp [hserving.1]
  refine ⟨t, ht, fun hidle => ?_, ?_, h.queue, h.nodup, h.done, fun p i k a hp => ?_⟩
  · have hpending : s.pending = [] := by
      by_contra hne
      simp [hbusy.mpr hne] at hidle
    rw [hpending] at hserving
    exact hserving.2
  · rw [hbusy, State.pending, Ne, List.drop_eq_nil_iff, not_le]
  · obtain ⟨-, hcall, hres⟩ := h.wait p i k a hp
    refine ⟨hcall, hres, fun s' hs => ?_⟩
    simp only [step, hp] at hs
    cases a with
    | true => simp at hs
    | false =>
      rw [h.served_iff hp]
      exact post_of_exec hs (Inv.wp_test (E := fun _ => True))

/-- Process `false` writes 7 to block 5, and process `true` reads the block while it is written. -/
def writeAndRead : List (Event Bool) :=
  [.acquiresleep false 0, .change false 0 ⟨true, true, 1, 5, none, 1, 7⟩,
    .acquiresleep true 1, .change true 1 ⟨false, false, 1, 5, none, 1, 0⟩,
    .iderw false 0, .iderw true 1, .interrupt, .resume false, .wake true, .resume true, .interrupt]

/-- The driver after booting, with an empty disk. -/
def booted : State Bool where
  buf _ := ⟨false, false, 0, 0, none, 0, 0⟩
  qnext _ := none
  idequeue := none
  havedisk1 := true
  disk _ _ := 0
  port := 0
  busy := false
  loc _ := .run
  calls := []
  results := []

theorem booted_initial : Initial booted := ⟨rfl, rfl, rfl, fun _ => rfl, rfl, rfl⟩

instance (disksize : ℕ) (s : State P) (e : Event P) : Decidable (Admitted disksize s e) :=
  match e with
  | .iderw _ _ => inferInstanceAs (Decidable (_ ∧ _ ∧ _ ∧ _))
  | .acquiresleep _ _ => inferInstanceAs (Decidable True)
  | .releasesleep _ _ => inferInstanceAs (Decidable True)
  | .change _ _ _ => inferInstanceAs (Decidable True)
  | .wake _ => inferInstanceAs (Decidable True)
  | .resume _ => inferInstanceAs (Decidable True)
  | .interrupt => inferInstanceAs (Decidable True)

theorem ide_refines_memide_writeAndRead : ∃ (s : State Bool) (t : Bcache.State Bool),
    Runs 1000 booted writeAndRead s ∧
    memRun (Bcache.init (fun _ => 0) 1000 Bcache.oneOutstanding) (s.calls.take s.results.length) =
      .ok (s.results, t) ∧ s.disk true = t.disk ∧ s.disk true 5 = 7 ∧ (s.buf 1).data = 7 := by
  have hexec : (writeAndRead.foldlM (guarded step (Admitted 1000)) booted).map
      (fun s => (s.busy, s.disk true 5, (s.buf 1).data)) = some (false, 7, 7) := by
    decide +kernel
  obtain ⟨s, hs, heq⟩ := map_eq_some_iff.mp hexec
  obtain ⟨hbusy, heq'⟩ := Prod.mk.inj heq
  obtain ⟨hdisk, hdata⟩ := Prod.mk.inj heq'
  have hrun := Run.of_foldlM hs
  have hdisk₀ : (Bcache.init (fun _ => 0) 1000 Bcache.oneOutstanding : Bcache.State Bool).disk =
    booted.disk true := rfl
  obtain ⟨t, ht, hidle, -⟩ := ide_refines_memide booted_initial hdisk₀ hrun
  exact ⟨s, t, hrun, ht, hidle hbusy, hdisk, hdata⟩

end Dave.Ide
