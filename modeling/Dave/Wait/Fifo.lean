import Dave.Wait.Code

/-!
# Pipes are queues

Whatever the readers, the writers and the processes that close the ends do, and however often the
counters wrap around, the bytes copied out of a pipe followed by the bytes in its buffer are the
bytes stored in it.
-/

namespace Dave.Wait

open Monitor

/-- The pipe holds at most `PIPESIZE` bytes, and they are the stored bytes not yet returned. -/
structure Fifo (p : Pipe) : Prop where
  le : (p.nwrite - p.nread).toNat ≤ pipeSize
  stored_eq : p.stored = p.returned ++ Ring.contents p.data p.nread p.nwrite

namespace Fifo

variable {p : Pipe}

theorem alloc (data : Fin pipeSize → Byte) : Fifo (.alloc data) where
  le := by simp [Pipe.alloc]
  stored_eq := by rw [Pipe.alloc, Ring.contents_self]; rfl

theorem lt_of_not_full (h : Fifo p) (hfull : p.full = false) :
    (p.nwrite - p.nread).toNat < pipeSize := by
  have hne : (p.nwrite - p.nread).toNat ≠ pipeSize := fun heq =>
    absurd ((Ring.eq_add_iff (by decide)).mpr heq) (of_decide_eq_false hfull)
  exact lt_of_le_of_ne h.le hne

theorem store (h : Fifo p) (hfull : p.full = false) (b : Byte) : Fifo (p.store b) := by
  have hlt := h.lt_of_not_full hfull
  constructor
  · have hnext : (p.nwrite + 1 - p.nread).toNat = (p.nwrite - p.nread).toNat + 1 :=
      Ring.toNat_add_one_sub (Nat.lt_of_le_of_lt hlt (by decide))
    exact hnext.trans_le hlt
  · calc p.stored ++ [b]
        = p.returned ++ (Ring.contents p.data p.nread p.nwrite ++ [b]) := by
          rw [h.stored_eq, List.append_assoc]
      _ = _ := by rw [← Ring.contents_push (by decide) p.data b hlt (by decide)]; rfl

theorem take (h : Fifo p) (hempty : p.empty = false) : Fifo p.take := by
  have hne : p.nread ≠ p.nwrite := of_decide_eq_false hempty
  constructor
  · have hle := h.le
    rw [Ring.toNat_sub_add_one hne] at hle
    exact (Nat.le_succ _).trans hle
  · calc p.stored
        = p.returned ++ p.front :: Ring.contents p.data (p.nread + 1) p.nwrite := by
          rw [h.stored_eq, Ring.contents_pop _ hne]; rfl
      _ = _ := List.append_cons ..

theorem close (h : Fifo p) (writable : Bool) : Fifo (p.close writable) := by
  cases writable <;> exact ⟨h.le, h.stored_eq⟩

theorem changes {s : Shared} {k k' : Loc} {p' : Pipe} (h : Fifo s.pipe)
    (hc : Changes s k p' k') : Fifo p' := by
  cases hc with
  | same => exact h
  | store n b rest hfull => exact h.store hfull b
  | take n got hempty => exact h.take hempty
  | close writable => exact h.close writable

theorem returned_eq_stored (h : Fifo p) (hempty : p.empty = true) : p.returned = p.stored := by
  rw [h.stored_eq, show p.nread = p.nwrite from of_decide_eq_true hempty, Ring.contents_self,
    List.append_nil]

end Fifo

/-- What a `piperead` that has left its wait loop knows of the pipe: its bytes are the last that
have been copied out, and if there are none the stream is at its end. -/
def Reads : Loc → Pipe → Prop
  | .readCopy _ got, p => got <:+ p.returned ∧ (got = [] → p.empty = true → p.writeopen = false)
  | .readWake n got, p | .readRelease n got, p =>
    got <:+ p.returned ∧ (0 < n → got = [] → p.empty = true ∧ p.writeopen = false)
  | _, _ => True

theorem Reads.of_lock {k : Loc} (hk : k.lock ≠ some .pipe) (p : Pipe) : Reads k p := by
  cases k with
  | readCopy | readWake | readRelease => exact absurd rfl hk
  | _ => trivial

theorem reads_asserts : Asserts code holds fun k s => Reads k s.pipe := by
  refine asserts_of_pipe (fun _ p hk => .of_lock hk p) (fun k l k' hk p => ?_)
    (fun k c l k' hk p => ?_) fun k s hlock hk => ?_
  · rcases code_eq_acquire hk with ⟨n, rest, rfl⟩ | ⟨n, rfl⟩ | ⟨w, rfl⟩ | hout
    · trivial
    · trivial
    · trivial
    · exact .of_lock hout p
  · cases code_eq_sleep hk <;> trivial
  · cases k with
    | readTest n =>
      by_cases hwait : (s.pipe.empty && s.pipe.writeopen) = true
      · simp only [code, Keeps, if_pos hwait, Reads]
      · simp only [code, Keeps, if_neg hwait]
        exact ⟨List.nil_suffix, by simpa using hwait⟩
    | readCopy n got =>
      obtain ⟨hgot, hend⟩ := hk
      by_cases hcopy : (got.length : ℤ) < n ∧ s.pipe.empty = false
      · obtain ⟨pre, hpre⟩ := hgot
        simp only [code, Keeps, hcopy, and_self, if_true, Reads, Pipe.take]
        exact ⟨⟨pre, by rw [← List.append_assoc, hpre]⟩, by simp⟩
      · simp only [code, Keeps, if_neg hcopy]
        refine ⟨hgot, ?_⟩
        rintro hn rfl
        have hempty : s.pipe.empty = true := by
          by_contra hne
          exact hcopy ⟨hn, by simpa using hne⟩
        exact ⟨hempty, hend rfl hempty⟩
    | readWake n got => exact hk
    | writeLoop n rest =>
      cases rest with
      | nil => trivial
      | cons b rest =>
        by_cases hfull : s.pipe.full = true <;> simp [code, Keeps, hfull, Reads]
    | writeFull n rest =>
      by_cases hopen : s.pipe.readopen = true <;> simp [code, Keeps, hopen, Reads]
    | writeKilled | readKilled => exact ⟨trivial, trivial⟩
    | writeWake | writeSleep | writeFail | writeDone | writeRelease | readSleep | readFail
    | readRelease | closeSet | closeWake | closeTest | closeRelease => trivial
    | _ => cases hlock

variable {P : Type} [DecidableEq P] {data : Fin pipeSize → Byte} {input : Input} {ticks : Word}

structure FifoInv (m : State P Lock Chan Shared Loc) : Prop where
  owned : Owned code holds m
  fifo : Fifo m.shared.pipe
  reads : Asserted (fun k s => Reads k s.pipe) m

theorem FifoInv.start : FifoInv (start P data input ticks) where
  owned := owned_start
  fifo := .alloc data
  reads _ _ := trivial

theorem FifoInv.step {m m' : State P Lock Chan Shared Loc} {e : Event P Loc} (h : FifoInv m)
    (hs : step code m e = some m') : FifoInv m' where
  owned := h.owned.step respects hs
  fifo := shared_step (I := fun s => Fifo s.pipe) (fun _ _ s hk hI => hI.changes (changes hk s))
    h.fifo hs
  reads := h.reads.step reads_asserts h.owned hs

theorem FifoInv.run {es : List (Event P Loc)} {m : State P Lock Chan Shared Loc}
    (hr : Run (Monitor.step code) anyEvent (Wait.start P data input ticks) es m) : FifoInv m :=
  hr.invariant .start fun h _ hs => h.step hs

/-- **Pipes are lossless queues.** In every state that any number of readers, writers and closers
reach by any interleaving of their steps, the pipe holds at most `PIPESIZE` bytes; the bytes
returned are the first of the bytes stored; the remaining ones are the bytes of `data` at the
indices `nread, …, nwrite - 1` modulo `PIPESIZE`; and a `piperead` about to return hands over the
last bytes taken out, which are none for `n > 0` only when the write end is closed and every byte
stored has been returned. -/
theorem pipe_fifo {es : List (Event P Loc)} {m : State P Lock Chan Shared Loc}
    (hr : Run (step code) anyEvent (start P data input ticks) es m) :
    (m.shared.pipe.nwrite - m.shared.pipe.nread).toNat ≤ pipeSize ∧
    m.shared.pipe.returned <+: m.shared.pipe.stored ∧
    m.shared.pipe.stored = m.shared.pipe.returned ++
      Ring.contents m.shared.pipe.data m.shared.pipe.nread m.shared.pipe.nwrite ∧
    ∀ q n got, m.status q = .run → m.loc q = .readRelease n got →
      got <:+ m.shared.pipe.returned ∧
      (0 < n → got.length = 0 →
        m.shared.pipe.writeopen = false ∧ m.shared.pipe.returned = m.shared.pipe.stored) := by
  have h := FifoInv.run hr
  refine ⟨h.fifo.le, ?_, h.fifo.stored_eq, fun q n got hq hloc => ?_⟩
  · rw [h.fifo.stored_eq]
    exact List.prefix_append ..
  · have hreads := h.reads q hq
    rw [hloc] at hreads
    refine ⟨hreads.1, fun hn hgot => ?_⟩
    obtain ⟨hempty, hclosed⟩ := hreads.2 hn (List.length_eq_zero_iff.mp hgot)
    exact ⟨hclosed, h.fifo.returned_eq_stored hempty⟩

/-- One process writes two bytes and closes the write end; the other reads one byte, then the
other one, then nothing. -/
def writeCloseRead : List (Event Bool Loc) :=
  [.pick true (.writeAcquire 2 [7, 8]), .go true, .go true, .go true, .go true, .go true, .go true,
    .pick false (.readAcquire 1), .go false, .go false, .go false, .go false, .go false, .go false,
    .pick true (.closeAcquire true), .go true, .go true, .go true, .go true, .go true,
    .pick false (.readAcquire 5), .go false, .go false, .go false, .go false, .go false, .go false,
    .pick false (.readAcquire 5), .go false, .go false, .go false, .go false]

/-- Process `false` runs and is about to return from `piperead` with nothing. -/
def readsNothing (m : State Bool Lock Chan Shared Loc) : Bool :=
  match m.loc false, m.status false with
  | .readRelease 5 [], .run => true
  | _, _ => false

theorem of_readsNothing {m : State Bool Lock Chan Shared Loc} (h : readsNothing m = true) :
    m.loc false = .readRelease 5 [] ∧ m.status false = .run := by
  unfold readsNothing at h
  split at h
  · next hloc hstatus => exact ⟨hloc, hstatus⟩
  · cases h

theorem pipe_fifo_writeCloseRead : ∃ m : State Bool Lock Chan Shared Loc,
    Run (step code) anyEvent (start Bool (fun _ => 0) ⟨fun _ => 0, 0, 0, 0⟩ 0) writeCloseRead m ∧
    m.shared.pipe.stored = [7, 8] ∧
    m.loc false = .readRelease 5 [] ∧ m.shared.pipe.returned = m.shared.pipe.stored := by
  have hexec : (writeCloseRead.foldlM (guarded (step code) anyEvent)
      (start Bool (fun _ => 0) ⟨fun _ => 0, 0, 0, 0⟩ 0)).map
        (fun m => (m.shared.pipe.stored, readsNothing m)) = some ([7, 8], true) := by
    decide +kernel
  obtain ⟨m, hm, heq⟩ := Option.map_eq_some_iff.mp hexec
  have hrun := Run.of_foldlM hm
  obtain ⟨hstored, hnothing⟩ := Prod.mk.inj heq
  obtain ⟨hloc, hstatus⟩ := of_readsNothing hnothing
  obtain ⟨-, -, -, hret⟩ := pipe_fifo hrun
  exact ⟨m, hrun, hstored, hloc, ((hret false 5 [] hstatus hloc).2 (by decide) rfl).2⟩

end Dave.Wait
