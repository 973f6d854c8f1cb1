import Dave.Wait.Code

/-!
# The line discipline of the console

`consoleintr` edits the last line of `input.buf`, and commits it when it is complete or when the
buffer is full; `consoleread` takes committed characters. The characters that are taken are the
committed ones, in order, and a call returns what it has taken. The exception is a call that has
taken characters, waits for more and finds its process killed: it returns -1.

## Main definitions

* `Ringed`: the counters of the buffer are in order.
* `Lossless`: the steps that do not lose characters.

## Main results

* In every run, what was committed is taken in order, and each process has been given what it has
  taken if and only if all steps are lossless.
* A run in which characters are lost.
-/

namespace Dave.Wait

open List Function Monitor Input

/-! ### The buffer -/

instance : NeZero inputBuf := ⟨by decide⟩

/-- The counters are in order and at most `INPUT_BUF` apart, and the line being edited has no end
in it. -/
structure Ringed (i : Input) : Prop where
  le : (i.e - i.r).toNat ≤ inputBuf
  split : (i.e - i.r).toNat = (i.w - i.r).toNat + (i.e - i.w).toNat
  clean : ∀ c ∈ Ring.contents i.buf i.w i.e, c ≠ newline ∧ c ≠ ctrlD

/-- The committed characters that have not been taken. -/
def Input.unread (i : Input) : List Byte := Ring.contents i.buf i.r i.w

variable {i : Input}

section

variable (h : Ringed i)

include h

theorem Ringed.erase (hne : i.e ≠ i.w) : Ringed { i with e := i.e - 1 } where
  le := by
    have := h.le
    have := h.split
    dsimp only
    bv_omega
  split := by
    have := h.split
    dsimp only
    bv_omega
  clean c hc := by
    refine h.clean c ?_
    rw [Ring.contents_append (m := i.e - 1) _ (by bv_omega)]
    exact mem_append_left _ hc

theorem Ringed.killLine (n : ℕ) : Ringed (i.killLine n) ∧
    (i.killLine n).buf = i.buf ∧ (i.killLine n).r = i.r ∧ (i.killLine n).w = i.w := by
  induction n generalizing i with
  | zero => exact ⟨h, rfl, rfl, rfl⟩
  | succ n ih =>
    rw [Input.killLine]
    split_ifs with hne
    · exact ih (h.erase hne.1)
    · exact ⟨h, rfl, rfl, rfl⟩

theorem Ringed.split_put (hlt : (i.e - i.r).toNat < inputBuf) :
    (i.e + 1 - i.r).toNat ≤ inputBuf ∧
      (i.e + 1 - i.r).toNat = (i.w - i.r).toNat + (i.e + 1 - i.w).toNat := by
  have hsplit := h.split
  have hlt' : (i.e - i.r).toNat < 128 := hlt
  exact ⟨show _ ≤ 128 by bv_omega, by bv_omega⟩

theorem Ringed.put (hlt : (i.e - i.r).toNat < inputBuf) (c : Byte) :
    (i.put c).unread = i.unread ∧
      Ring.contents (i.put c).buf i.w (i.put c).e = Ring.contents i.buf i.w i.e ++ [c] := by
  have hsplit := h.split
  have hnew := Ring.contents_push (by decide) i.buf c (r := i.w) (n := i.e) (by omega) (by decide)
  have hall := Ring.contents_push (by decide) i.buf c hlt (by decide)
  refine ⟨?_, hnew⟩
  rw [Ring.contents_append (m := i.w) _ hsplit,
    Ring.contents_append (m := i.w) _ (h.split_put hlt).2, hnew, append_assoc] at hall
  exact append_cancel_right hall

theorem Ringed.intr (c : Byte) : Ringed (i.intr c).1 ∧ (i.intr c).1.r = i.r ∧
    (i.intr c).1.unread = i.unread ++ Ring.contents (i.intr c).1.buf i.w (i.intr c).1.w := by
  have hsame : Ringed i ∧ i.r = i.r ∧ i.unread = i.unread ++ Ring.contents i.buf i.w i.w :=
    ⟨h, rfl, by simp⟩
  simp only [Input.intr]
  generalize (if c = 0x0d then newline else c) = c'
  split_ifs with hP hU hH hne hlt hend
  · exact hsame
  · obtain ⟨hk, hbuf, hr, hw⟩ := h.killLine (i.e - i.w).toNat
    exact ⟨hk, hr, by rw [unread, hbuf, hr, hw]; exact hsame.2.2⟩
  · exact ⟨h.erase hne, rfl, by simp [unread]⟩
  · exact hsame
  · -- the line is committed
    have hroom : (i.e - i.r).toNat < inputBuf := BitVec.lt_def.mp hlt.2
    obtain ⟨hle, hsplit⟩ := h.split_put hroom
    refine ⟨⟨hle, by simp, by simp⟩, rfl, ?_⟩
    rw [← (h.put hroom _).1]
    exact Ring.contents_append _ hsplit
  · have hroom : (i.e - i.r).toNat < inputBuf := BitVec.lt_def.mp hlt.2
    obtain ⟨hle, hsplit⟩ := h.split_put hroom
    refine ⟨⟨hle, hsplit, fun x hx => ?_⟩, rfl, ?_⟩
    · have hnew := (h.put hroom c').2
      rcases mem_append.mp (hnew ▸ hx) with hx | hx
      · exact h.clean x hx
      · rw [mem_singleton.mp hx]
        exact ⟨fun heq => hend (.inl heq), fun heq => hend (.inr (.inl heq))⟩
    · rw [(h.put hroom _).1, show (i.put c').w = i.w from rfl, Ring.contents_self, append_nil]
  · exact hsame

theorem Ringed.advance (hne : i.r ≠ i.w) : Ringed i.advance ∧
    i.unread = i.buf (Ring.index inputBuf i.r) :: i.advance.unread := by
  refine ⟨⟨?_, ?_, h.clean⟩, Ring.contents_pop _ hne⟩
  · have := h.le
    have := h.split
    dsimp only [Input.advance]
    bv_omega
  · have := h.split
    dsimp only [Input.advance]
    bv_omega

end

/-! ### What happens -/

namespace Loc

/-- The characters that a `consoleread` has copied, before it returns. -/
def pending : Loc → List Byte
  | .consLoop _ _ got | .consKilled _ _ got | .consSleep _ _ got => got
  | _ => []

/-- What a `consoleread` returns. -/
def result : Loc → Option (List Byte)
  | .consRelease got => some got
  | _ => none

/-- The characters that a step loses: a `consoleread` that waits for more finds its process killed,
and returns -1. -/
def lost (killed : Bool) : Loc → List Byte
  | .consKilled _ _ got => if killed then got else []
  | _ => []

/-- A `consoleread` counts the characters that it has copied. -/
def Counts : Loc → Prop
  | .consLoop target n got | .consKilled target n got | .consSleep target n got =>
    n + got.length = target
  | _ => True

end Loc

/-- What has happened so far: the characters that were committed, those that were taken and by
which process, and the characters that each process's calls have returned, where a call that returns
none of them adds the `^D` that it has taken. -/
structure Trace (P : Type) where
  committed : List Byte
  taken : List (P × Byte)
  returned : P → List Byte

variable {P : Type} [DecidableEq P]

/-- An event that leads from `m` to `m'`. -/
def Trace.after (t : Trace P) (m m' : State P Lock Chan Shared Loc) : Event P Loc → Trace P
  | .go p =>
    let took := Ring.contents m.shared.input.buf m.shared.input.r m'.shared.input.r
    { committed := t.committed ++
        Ring.contents m'.shared.input.buf m.shared.input.w m'.shared.input.w
      taken := t.taken ++ took.map (p, ·)
      returned := update t.returned p (t.returned p ++
        ((m'.loc p).result.elim [] fun got => if got = [] then took else got)) }
  | _ => t

/-- A step, with what has happened. -/
def traced (x : State P Lock Chan Shared Loc × Trace P) (e : Event P Loc) :
    Option (State P Lock Chan Shared Loc × Trace P) :=
  (step code x.1 e).map fun m' => (m', x.2.after x.1 m' e)

/-- At first nothing has happened. -/
def tracedStart (P : Type) (data : Fin pipeSize → Byte) (buf : Fin inputBuf → Byte)
    (n ticks : Word) : State P Lock Chan Shared Loc × Trace P :=
  (start P data ⟨buf, n, n, n⟩ ticks, ⟨[], [], fun _ => []⟩)

/-- The events that lose no characters. -/
def Lossless (x : State P Lock Chan Shared Loc × Trace P) : Event P Loc → Prop
  | .go p => (x.1.loc p).lost (x.1.mark p) = []
  | _ => True

instance (x : State P Lock Chan Shared Loc × Trace P) : DecidablePred (Lossless x)
  | .go p => inferInstanceAs (Decidable ((x.1.loc p).lost (x.1.mark p) = []))
  | .pick _ _ | .mark _ => inferInstanceAs (Decidable True)

/-! ### Steps -/

/-- A step that neither takes characters nor returns or loses any. -/
structure Quiet (b : Bool) (k k' : Loc) : Prop where
  pending : k'.pending = k.pending
  counts : k.Counts → k'.Counts
  result : k'.result = none
  lost : k.lost b = []

/-- What one access does to `input`, with the location before and after. -/
inductive Accesses (s : Shared) (b : Bool) : Loc → Input → Loc → Prop where
  | same {k k' : Loc} (h : Quiet b k k') : Accesses s b k s.input k'
  | intr (c : Byte) (cs : List Byte) (k' : Loc) (hk : k' = .intrWake cs ∨ k' = .intrLoop cs) :
      Accesses s b (.intrLoop (c :: cs)) (s.input.intr c).1 k'
  | finish (target n : ℤ) (got : List Byte) (h : n ≤ 0 ∨ n < target) :
      Accesses s b (.consLoop target n got) s.input (.consRelease got)
  | eof (target n : ℤ) (got : List Byte) (hne : s.input.r ≠ s.input.w) (h : ¬ n < target)
      (hc : s.input.buf (Ring.index inputBuf s.input.r) = ctrlD) :
      Accesses s b (.consLoop target n got) s.input.advance (.consRelease got)
  | line (target n : ℤ) (got : List Byte) (hne : s.input.r ≠ s.input.w) :
      Accesses s b (.consLoop target n got) s.input.advance
        (.consRelease (got ++ [s.input.buf (Ring.index inputBuf s.input.r)]))
  | char (target n : ℤ) (got : List Byte) (hne : s.input.r ≠ s.input.w) :
      Accesses s b (.consLoop target n got) s.input.advance
        (.consLoop target (n - 1) (got ++ [s.input.buf (Ring.index inputBuf s.input.r)]))

theorem accesses {k : Loc} {f : Shared → Shared × Loc} (hk : code k = .access f) (s : Shared)
    (b : Bool) : Accesses s b k (f s).1.input (f s).2 := by
  cases k with
  | consLoop target n got =>
    cases hk
    dsimp only
    split_ifs with hpos hempty hD hlt hnl
    · exact .same ⟨rfl, id, rfl, rfl⟩
    · exact .finish target n got (.inr hlt)
    · exact .eof target n got hempty hlt hD
    · exact .line target n got hempty
    · exact .char target n got hempty
    · exact .finish target n got (.inl (not_lt.mp hpos))
  | intrLoop cs =>
    cases cs with
    | nil => cases hk; exact .same ⟨rfl, id, rfl, rfl⟩
    | cons c cs =>
      cases hk
      refine .intr c cs _ ?_
      dsimp only
      split_ifs <;> simp
  | writeLoop n rest =>
    cases rest with
    | nil => cases hk; exact .same ⟨rfl, id, rfl, rfl⟩
    | cons b rest =>
      cases hk
      dsimp only
      split_ifs <;> exact .same ⟨rfl, id, rfl, rfl⟩
  | closeSet | closeTest | sleepStart | tickAdd => cases hk; exact .same ⟨rfl, id, rfl, rfl⟩
  | writeFull | readTest | readCopy | sleepLoop =>
    cases hk
    dsimp only
    split_ifs <;> exact .same ⟨rfl, id, rfl, rfl⟩
  | _ => cases hk

theorem quiet_of_leads {k k' : Loc} {s : Shared} {b : Bool}
    (h : (code k).Leads s b k' ∨ ∃ c l, code k = .sleep c l k') (hna : ∀ f, code k ≠ .access f) :
    Quiet b k k' ∨ (∃ target n got, k = .consKilled target n got) ∧ b = true ∧ k' = .consFail := by
  rcases h with h | ⟨c, l, h⟩
  · cases k with
    | idle => cases k' <;> first | exact .inl ⟨rfl, id, rfl, rfl⟩ | cases h
    | consKilled target n got =>
      cases b
      · exact .inl (h ▸ ⟨rfl, id, rfl, rfl⟩)
      · exact .inr ⟨⟨_, _, _, rfl⟩, rfl, h⟩
    | writeKilled | readKilled | sleepKilled =>
      cases b <;> exact .inl (h ▸ ⟨rfl, id, rfl, rfl⟩)
    | writeLoop n rest => cases rest <;> exact absurd rfl (hna _)
    | intrLoop cs => cases cs <;> exact absurd rfl (hna _)
    | consAcquire n => exact .inl (h ▸ ⟨rfl, fun _ => Int.add_zero n, rfl, rfl⟩)
    | _ => first | exact .inl (h ▸ ⟨rfl, id, rfl, rfl⟩) | exact absurd rfl (hna _) | exact h.elim
  · cases code_eq_sleep h <;> exact .inl ⟨rfl, id, rfl, rfl⟩

/-- The characters that process `p` has taken. -/
def Trace.takenBy (t : Trace P) (p : P) : List Byte := (t.taken.filter (·.1 = p)).map Prod.snd

/-- What holds in every state that is reached. `clean` tells whether no characters have been lost;
if some have, there is a process that has taken more than it can account for. -/
structure Disciplined (clean : Prop) (m : State P Lock Chan Shared Loc) (t : Trace P) : Prop where
  owned : Owned code holds m
  ringed : Ringed m.shared.input
  committed : t.committed = t.taken.map Prod.snd ++ m.shared.input.unread
  counts : ∀ p, (m.loc p).Counts
  returned : clean → ∀ p, t.takenBy p = t.returned p ++ (m.loc p).pending
  short : ¬ clean → ∃ p, (t.returned p ++ (m.loc p).pending).length < (t.takenBy p).length

theorem Disciplined.start (data : Fin pipeSize → Byte) (buf : Fin inputBuf → Byte)
    (n ticks : Word) {clean : Prop} (hclean : clean) :
    Disciplined clean (tracedStart P data buf n ticks).1 (tracedStart P data buf n ticks).2 where
  owned := owned_start
  ringed := ⟨by simp [tracedStart, Wait.start], by simp [tracedStart, Wait.start],
    by simp [tracedStart, Wait.start]⟩
  committed := by simp [tracedStart, Wait.start, unread]
  counts _ := trivial
  returned _ _ := rfl
  short hnot := absurd hclean hnot

section Step

variable {m m' : State P Lock Chan Shared Loc} {t : Trace P} {p : P} {k' : Loc} {clean : Prop}

theorem Trace.takenBy_after_self {took : List Byte}
    (h : Ring.contents m.shared.input.buf m.shared.input.r m'.shared.input.r = took) :
    (t.after m m' (.go p)).takenBy p = t.takenBy p ++ took := by
  simp [Trace.after, Trace.takenBy, h, filter_map, Function.comp_def]

theorem Trace.takenBy_after_of_ne {q : P} (hq : q ≠ p) :
    (t.after m m' (.go p)).takenBy q = t.takenBy q := by
  simp [Trace.after, Trace.takenBy, Ne.symm hq]

theorem Trace.returned_after_self {took : List Byte}
    (h : Ring.contents m.shared.input.buf m.shared.input.r m'.shared.input.r = took)
    (hloc : m'.loc = update m.loc p k') : (t.after m m' (.go p)).returned p =
      t.returned p ++ (k'.result.elim [] fun got => if got = [] then took else got) := by
  simp [Trace.after, h, hloc]

theorem Trace.returned_after_of_ne {q : P} (hq : q ≠ p) :
    (t.after m m' (.go p)).returned q = t.returned q := update_of_ne hq ..

variable (h : Disciplined clean m t)

include h

section

variable (hown : Owned code holds m')

include hown

theorem Disciplined.go
    (hloc : m'.loc = update m.loc p k') (hring : Ringed m'.shared.input) (took : List Byte)
    (htook : Ring.contents m.shared.input.buf m.shared.input.r m'.shared.input.r = took)
    (hunread : m.shared.input.unread ++
      Ring.contents m'.shared.input.buf m.shared.input.w m'.shared.input.w =
        took ++ m'.shared.input.unread) (hcounts : k'.Counts)
    (hret : (m.loc p).pending ++ took =
      (k'.result.elim [] fun got => if got = [] then took else got) ++ k'.pending ++
        (m.loc p).lost (m.mark p)) :
    Disciplined (clean ∧ Lossless (m, t) (.go p)) m' (t.after m m' (.go p)) where
  owned := hown
  ringed := hring
  committed := by
    simp only [Trace.after, htook]
    rw [h.committed, append_assoc, hunread]
    simp
  counts q := by
    rw [hloc, update_apply]
    split_ifs
    · exact hcounts
    · exact h.counts q
  returned hc q := by
    have hold := h.returned hc.1 q
    by_cases hq : q = p
    · subst hq
      rw [show (m.loc q).lost (m.mark q) = [] from hc.2, append_nil] at hret
      rw [Trace.takenBy_after_self htook, Trace.returned_after_self htook hloc, hloc, update_self,
        hold, append_assoc, hret, append_assoc]
    · rw [Trace.takenBy_after_of_ne hq, Trace.returned_after_of_ne hq, hloc, update_of_ne hq, hold]
  short hc := by
    have hlen := congrArg length hret
    simp only [length_append] at hlen
    by_cases hclean : clean
    · -- the step loses characters
      have hlost : 0 < ((m.loc p).lost (m.mark p)).length :=
        length_pos_iff.mpr fun hnil => hc ⟨hclean, hnil⟩
      refine ⟨p, ?_⟩
      rw [Trace.takenBy_after_self htook, Trace.returned_after_self htook hloc, hloc, update_self,
        h.returned hclean p]
      simp only [length_append]
      omega
    · obtain ⟨q, hq⟩ := h.short hclean
      refine ⟨q, ?_⟩
      by_cases hqp : q = p
      · subst hqp
        rw [Trace.takenBy_after_self htook, Trace.returned_after_self htook hloc, hloc, update_self]
        simp only [length_append] at hq ⊢
        omega
      · rwa [Trace.takenBy_after_of_ne hqp, Trace.returned_after_of_ne hqp, hloc, update_of_ne hqp]

theorem Disciplined.go_still
    (hinput : m'.shared.input = m.shared.input) (hloc : m'.loc = update m.loc p k')
    (hcounts : k'.Counts)
    (hret : (m.loc p).pending = k'.result.getD [] ++ k'.pending ++ (m.loc p).lost (m.mark p)) :
    Disciplined (clean ∧ Lossless (m, t) (.go p)) m' (t.after m m' (.go p)) := by
  refine h.go hown hloc (hinput ▸ h.ringed) [] ?_ ?_ hcounts ?_
  · rw [hinput, Ring.contents_self]
  · rw [hinput, Ring.contents_self, append_nil, nil_append]
  · rw [append_nil]
    refine hret.trans ?_
    cases k'.result with
    | none => rfl
    | some got => by_cases hgot : got = [] <;> simp [hgot]

theorem Disciplined.go_quiet (hinput : m'.shared.input = m.shared.input)
    (hloc : m'.loc = update m.loc p k') (hq : Quiet (m.mark p) (m.loc p) k') :
    Disciplined (clean ∧ Lossless (m, t) (.go p)) m' (t.after m m' (.go p)) := by
  refine h.go_still hown hinput hloc (hq.counts (h.counts p)) ?_
  rw [hq.result, hq.pending, hq.lost]
  simp

theorem Disciplined.go_take
    (hloc : m'.loc = update m.loc p k') (hne : m.shared.input.r ≠ m.shared.input.w)
    (hi : m'.shared.input = m.shared.input.advance) (hcounts : k'.Counts)
    (hret : let took := [m.shared.input.buf (Ring.index inputBuf m.shared.input.r)]
      (m.loc p).pending ++ took =
        (k'.result.elim [] fun got => if got = [] then took else got) ++ k'.pending ++
          (m.loc p).lost (m.mark p)) :
    Disciplined (clean ∧ Lossless (m, t) (.go p)) m' (t.after m m' (.go p)) := by
  obtain ⟨hring, hunread⟩ := h.ringed.advance hne
  refine h.go hown hloc (hi ▸ hring) _ ?_ ?_ hcounts hret
  · rw [hi, Ring.contents_pop _ (by simp [Input.advance])]
    exact congrArg _ (Ring.contents_self ..)
  · rw [hi, hunread]
    exact congrArg _ ((congrArg _ (Ring.contents_self ..)).trans (append_nil _))

theorem Disciplined.go_accesses (hloc : m'.loc = update m.loc p k')
    (hacc : Accesses m.shared (m.mark p) (m.loc p) m'.shared.input k') :
    Disciplined (clean ∧ Lossless (m, t) (.go p)) m' (t.after m m' (.go p)) := by
  have hcounts := h.counts p
  generalize hi : m'.shared.input = i' at hacc
  generalize hk : m.loc p = k at hacc hcounts
  cases hacc with
  | same hq => exact h.go_quiet hown hi hloc (hk ▸ hq)
  | intr c cs k' hk' =>
    obtain ⟨hring, hr, hunread⟩ := h.ringed.intr c
    refine h.go hown hloc (hi ▸ hring) [] ?_ ?_ ?_ ?_
    · rw [hi, hr, Ring.contents_self]
    · rw [hi, hunread, nil_append]
    · rcases hk' with rfl | rfl <;> trivial
    · rw [hk]
      rcases hk' with rfl | rfl <;> rfl
  | finish target n got hn =>
    exact h.go_still hown hi hloc trivial (by simp [hk, Loc.pending, Loc.result, Loc.lost])
  | eof target n got hne hn hc =>
    have hlen : n + got.length = target := hcounts
    have hgot : got = [] := length_eq_zero_iff.mp (by omega)
    exact h.go_take hown hloc hne hi trivial (by simp [hk, Loc.pending, Loc.result, Loc.lost, hgot])
  | line target n got hne =>
    exact h.go_take hown hloc hne hi trivial (by simp [hk, Loc.pending, Loc.result, Loc.lost])
  | char target n got hne =>
    have hlen : n + got.length = target := hcounts
    refine h.go_take hown hloc hne hi ?_ (by simp [hk, Loc.pending, Loc.result, Loc.lost])
    simp only [Loc.Counts, length_append, length_singleton]
    omega

end

theorem Disciplined.step {e : Event P Loc} (hs : Monitor.step code m e = some m') :
    Disciplined (clean ∧ Lossless (m, t) e) m' (t.after m m' e) := by
  have hown := h.owned.step respects hs
  have hmoved := moved_of_step h.owned hs
  generalize hshared : m'.shared = s', hloc : m'.loc = loc' at hmoved
  cases hmoved with
  | access p f hk => exact h.go_accesses hown hloc (hshared ▸ accesses hk m.shared _)
  | leads p k hk hna =>
    have hinput : m'.shared.input = m.shared.input := by rw [hshared]
    rcases quiet_of_leads hk hna with hq | ⟨⟨target, n, got, hcons⟩, hmark, rfl⟩
    · exact h.go_quiet hown hinput hloc hq
    · exact h.go_still hown hinput hloc trivial
        (by simp [hcons, hmark, Loc.pending, Loc.result, Loc.lost])
  | pick p k ks hk hks =>
    have hq : Quiet false (m.loc p) k := by
      refine (quiet_of_leads (s := m.shared) (b := false) (.inl ?_) ?_).resolve_right ?_
      · rw [hk]
        exact hks
      · simp [hk]
      · rintro ⟨⟨target, n, got, hloc⟩, -⟩
        rw [hloc] at hk
        cases hk
    have hkeep (q : P) : (m'.loc q).pending = (m.loc q).pending ∧ (m'.loc q).Counts := by
      rw [hloc, update_apply]
      split_ifs with hqp
      · subst hqp
        exact ⟨hq.pending, hq.counts (h.counts q)⟩
      · exact ⟨rfl, h.counts q⟩
    refine ⟨hown, hshared ▸ h.ringed, hshared ▸ h.committed, fun q => (hkeep q).2, fun hc q => ?_,
      fun hc => ?_⟩
    · exact (h.returned hc.1 q).trans (congrArg _ (hkeep q).1.symm)
    · obtain ⟨q, hq⟩ := h.short fun hclean => hc ⟨hclean, trivial⟩
      exact ⟨q, by rwa [(hkeep q).1]⟩
  | inside p c l k hk =>
    have hq : Quiet (m.mark p) (m.loc p) (m.loc p) := by
      generalize m.loc p = k₀ at hk
      cases code_eq_sleep hk <;> exact ⟨rfl, id, rfl, rfl⟩
    exact h.go_quiet hown (by rw [hshared]) (hloc.trans (update_eq_self p m.loc).symm) hq
  | mark p =>
    exact ⟨hown, hshared ▸ h.ringed, hshared ▸ h.committed, hloc ▸ h.counts,
      fun hc => hloc ▸ h.returned hc.1, fun hc => hloc ▸ h.short fun hclean => hc ⟨hclean, trivial⟩⟩

end Step

theorem Disciplined.of_run {data : Fin pipeSize → Byte} {buf : Fin inputBuf → Byte}
    {n₀ ticks : Word} {es : List (Event P Loc)} {x : State P Lock Chan Shared Loc × Trace P}
    (hrun : Run traced anyEvent (tracedStart P data buf n₀ ticks) es x) :
    Disciplined (Run traced Lossless (tracedStart P data buf n₀ ticks) es x) x.1 x.2 := by
  induction hrun with
  | nil => exact .start data buf n₀ ticks .nil
  | @snoc es x x' e hrun _ hs ih =>
    have hiff : Run traced Lossless (tracedStart P data buf n₀ ticks) (es ++ [e]) x' ↔
        Run traced Lossless (tracedStart P data buf n₀ ticks) es x ∧ Lossless x e := by
      refine Run.snoc_iff.trans ⟨?_, fun h => ⟨x, h.1, h.2, hs⟩⟩
      rintro ⟨y, hy, hkeeps, -⟩
      rw [hrun.unique hy]
      exact ⟨hy, hkeeps⟩
    obtain ⟨m', hm', rfl⟩ := Option.map_eq_some_iff.mp hs
    rw [hiff]
    exact ih.step hm'

/-- **The line discipline.** In every state that is reached, the counters are in order and at most
`INPUT_BUF` apart, and no end of a line is among the characters from `w` to `e`; the characters that
were committed are those that were taken and those from `r` to `w`; the characters that each process
has taken are those that its calls have returned, with a `^D` for every end of file, and those of
the call that it is in, if and only if no event of the run was that of a killed process that waits
with characters in hand; and a call that returns nothing, although characters were asked for, takes
a `^D`, which comes first. -/
theorem line_discipline {data : Fin pipeSize → Byte} {buf : Fin inputBuf → Byte} {n₀ ticks : Word}
    {es : List (Event P Loc)} {m : State P Lock Chan Shared Loc} {t : Trace P}
    (hrun : Run traced anyEvent (tracedStart P data buf n₀ ticks) es (m, t)) :
    Ringed m.shared.input ∧
    t.committed = t.taken.map Prod.snd ++ m.shared.input.unread ∧
    ((∀ p, t.takenBy p = t.returned p ++ (m.loc p).pending) ↔
      Run traced Lossless (tracedStart P data buf n₀ ticks) es (m, t)) ∧
    ∀ p target n got m', m.loc p = .consLoop target n got → 0 < target →
      step code m (.go p) = some m' → m'.loc p = .consRelease [] →
      m.shared.input.r ≠ m.shared.input.w ∧
      m.shared.input.buf (Ring.index inputBuf m.shared.input.r) = ctrlD ∧
      m'.shared.input = m.shared.input.advance := by
  have h := Disciplined.of_run hrun
  refine ⟨h.ringed, h.committed, ⟨fun hall => ?_, h.returned⟩,
    fun p target n got m' hloc hpos hs hnone => ?_⟩
  · by_contra hlost
    obtain ⟨p, hp⟩ := h.short hlost
    rw [hall p] at hp
    exact lt_irrefl _ hp
  have hcounts := h.counts p
  have hmoved := moved_of_step h.owned hs
  generalize hshared : m'.shared = s', hloc' : m'.loc = loc' at hmoved
  cases hmoved with
  | access p f hk =>
    have hacc := accesses hk m.shared (m.mark p)
    rw [hloc', update_self] at hnone
    rw [hloc] at hacc hcounts
    generalize (f m.shared).1.input = i', (f m.shared).2 = k' at hacc hnone ⊢
    cases hacc with
    | same hq => cases hnone ▸ hq.result
    | finish _ _ _ hn =>
      cases hnone
      have hlen : n + 0 = target := hcounts
      omega
    | eof _ _ _ hne _ hc => exact ⟨hne, hc, rfl⟩
    | line => simp at hnone
    | char => cases hnone
  | leads p k hk hna => rw [hloc] at hna; exact absurd rfl (hna _)
  | inside p c l k hk => rw [hloc] at hk; cases hk

/-- A process reads a line and the end of file behind it. -/
def readLine : List (Event Bool Loc) :=
  [.pick true (.intrAcquire [97, 13, 4])] ++ List.replicate 8 (.go true) ++
    [.pick false (.consAcquire 5)] ++ List.replicate 4 (.go false) ++
    [.pick false (.consAcquire 5)] ++ List.replicate 2 (.go false)

theorem line_discipline_readLine : ∃ x : State Bool Lock Chan Shared Loc × Trace Bool,
    Run traced anyEvent (tracedStart Bool (fun _ => 0) (fun _ => 0) 0 0) readLine x ∧
    x.2.takenBy false = [97, 10, 4] ∧
    x.2.takenBy false = x.2.returned false ++ (x.1.loc false).pending := by
  have hexec : (readLine.foldlM (guarded traced Lossless)
      (tracedStart Bool (fun _ => 0) (fun _ => 0) 0 0)).map (fun x => x.2.takenBy false) =
        some [97, 10, 4] := by
    decide +kernel
  obtain ⟨x, hx, htaken⟩ := Option.map_eq_some_iff.mp hexec
  have hkeeps := Run.of_foldlM hx
  have hrun : Run traced anyEvent _ _ _ := hkeeps.mono fun _ _ _ => trivial
  exact ⟨x, hrun, htaken, (line_discipline hrun).2.2.1.mpr hkeeps false⟩

/-- The buffer is filled without an end of a line; a process reads all of it, waits for more and is
killed. -/
def killedReader : List (Event Bool Loc) :=
  [.pick true (.intrAcquire (List.replicate 128 97))] ++ List.replicate 132 (.go true) ++
    [.pick false (.consAcquire 200)] ++ List.replicate 130 (.go false) ++
    [.mark false] ++ List.replicate 2 (.go false)

theorem characters_lost : ∃ x : State Bool Lock Chan Shared Loc × Trace Bool,
    Run traced anyEvent (tracedStart Bool (fun _ => 0) (fun _ => 0) 0 0) killedReader x ∧
    x.2.committed = List.replicate 128 97 ∧ x.1.shared.input.unread = [] ∧
    ∀ p, (x.1.loc p).pending = [] ∧ x.2.returned p = [] := by
  have hexec : (killedReader.foldlM (guarded traced anyEvent)
      (tracedStart Bool (fun _ => 0) (fun _ => 0) 0 0)).any (fun x =>
        x.2.committed = List.replicate 128 97 ∧ x.1.shared.input.unread = [] ∧
          ∀ p, (x.1.loc p).pending = [] ∧ x.2.returned p = []) = true := by
    decide +kernel
  obtain ⟨x, hx, hlost⟩ := (Option.any_eq_true _ _).mp hexec
  exact ⟨x, Run.of_foldlM hx, of_decide_eq_true hlost⟩

end Dave.Wait
