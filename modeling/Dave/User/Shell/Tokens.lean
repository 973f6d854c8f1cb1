import Dave.Lib.Relate
import Dave.User.Shell.Grammar
import Mathlib.Data.List.TakeWhile

/-!
# The tokens of a line

The parser sees a line through `peek` and `gettoken`, and both go over the bytes. They see the
tokens of the line, so the parser does on the bytes of a line what it does on its tokens, and it
does not read behind the line. The words of the tree are then ended by `nulterminate`, which writes
only behind words.
-/

namespace Dave.Shell

open List

open Fs (Str)

variable {σ τ ω ω' : Type}

/-! ### Related sources -/

/-- The words of a token, replaced. -/
def Tok.map (f : ω → ω') : Tok ω → Tok ω'
  | .bar => .bar
  | .lparen => .lparen
  | .rparen => .rparen
  | .semicolon => .semicolon
  | .ampersand => .ampersand
  | .less => .less
  | .greater => .greater
  | .append => .append
  | .word w => .word (f w)

def Cmd.words : Cmd ω → List ω
  | .exec argv => argv
  | .redir cmd file _ => cmd.words ++ [file]
  | .pipe left right => left.words ++ right.words
  | .list left right => left.words ++ right.words
  | .back cmd => cmd.words

theorem Cmd.map_addArg (f : ω → ω') (c : Cmd ω) (w : ω) :
    (c.addArg w).map f = (c.map f).addArg (f w) := by
  induction c with
  | exec argv => simp [addArg, Cmd.map]
  | redir c file dir ih => simp [addArg, Cmd.map, ih]
  | _ => rfl

theorem Cmd.mem_words_addArg {c : Cmd ω} {w w' : ω} (h : w' ∈ (c.addArg w).words) :
    w' ∈ c.words ∨ w' = w := by
  induction c with
  | exec argv => simpa [addArg, words] using h
  | redir c file dir ih =>
    rw [addArg, words, mem_append] at h
    rw [words, mem_append]
    obtain h | h := h
    · exact (ih h).imp_left .inl
    · exact .inl (.inr h)
  | _ => exact .inl h

section Sim

variable (f : ω → ω') (P : ω → Prop)

/-- Two tokens are the same, up to the words, and the word has a property. -/
def TokSame (t : Option (Tok ω)) (t' : Option (Tok ω')) : Prop :=
  t' = t.map (Tok.map f) ∧ ∀ w, t = some (.word w) → P w

/-- Two trees are the same, up to the words, and the words have a property. -/
def CmdSame (c : Cmd ω) (c' : Cmd ω') : Prop := c' = c.map f ∧ ∀ w ∈ c.words, P w

/-- Two sources give the same tokens, up to the words. -/
structure Source.Sim (R : σ → τ → Prop) (S : Source σ ω) (S' : Source τ ω') : Prop where
  peek (cs : List Byte) (hcs : cs ⊆ symbols) : Related R Eq (S.peek cs) (S'.peek cs)
  gettoken : Related R (TokSame f P) S.gettoken S'.gettoken

variable {f P} {R : σ → τ → Prop} {S : Source σ ω} {S' : Source τ ω'} {c d : Cmd ω}
  {c' d' : Cmd ω'}

section

variable (h : CmdSame f P c c')

include h

theorem CmdSame.redir {w : ω} (hw : P w) (d : Dir) :
    CmdSame f P (.redir c w d) (.redir c' (f w) d) := by
  refine ⟨by rw [h.1, Cmd.map], fun w' hw' => ?_⟩
  rw [Cmd.words, mem_append, mem_singleton] at hw'
  obtain hw' | rfl := hw'
  · exact h.2 w' hw'
  · exact hw

theorem CmdSame.addArg {w : ω} (hw : P w) : CmdSame f P (c.addArg w) (c'.addArg (f w)) := by
  refine ⟨by rw [h.1, Cmd.map_addArg], fun w' hw' => ?_⟩
  obtain hw' | rfl := Cmd.mem_words_addArg hw'
  · exact h.2 w' hw'
  · exact hw

theorem CmdSame.back : CmdSame f P (.back c) (.back c') :=
  ⟨by rw [h.1, Cmd.map], h.2⟩

theorem CmdSame.pipe (h' : CmdSame f P d d') :
    CmdSame f P (.pipe c d) (.pipe c' d') :=
  ⟨by rw [h.1, h'.1, Cmd.map], fun w hw => (mem_append.mp hw).elim (h.2 w) (h'.2 w)⟩

theorem CmdSame.list (h' : CmdSame f P d d') :
    CmdSame f P (.list c d) (.list c' d') :=
  ⟨by rw [h.1, h'.1, Cmd.map], fun w hw => (mem_append.mp hw).elim (h.2 w) (h'.2 w)⟩

end

namespace Source.Sim

variable (h : S.Sim f P R S')

include h

theorem parseredirs (fuel : ℕ) (hc : CmdSame f P c c') :
    Related R (CmdSame f P) (Shell.parseredirs S fuel c) (Shell.parseredirs S' fuel c') := by
  induction fuel generalizing c c' with
  | zero => exact .throw _
  | succ fuel ih =>
    refine .bind (h.peek _ (by decide)) fun a a' ha => .ite (by rw [ha]) ?_ (.pure hc)
    refine .bind h.gettoken fun t t' ht => .bind h.gettoken fun u u' hu => ?_
    obtain ⟨rfl, -⟩ := ht
    obtain ⟨rfl, hu⟩ := hu
    cases u with
    | none => exact .throw _
    | some u =>
      cases u with
      | word w =>
        have hw := hu w rfl
        cases t with
        | none => exact ih hc
        | some t =>
          cases t with
          | less | greater | append => exact ih (hc.redir hw _)
          | _ => exact ih hc
      | _ => exact .throw _

theorem argsLoop (fuel argc : ℕ) (hc : CmdSame f P c c') :
    Related R (CmdSame f P) (Shell.argsLoop S fuel argc c) (Shell.argsLoop S' fuel argc c') := by
  induction fuel generalizing argc c c' with
  | zero => exact .throw _
  | succ fuel ih =>
    refine .bind (h.peek _ (by decide)) fun a a' ha => .ite (by rw [ha]) (.pure hc) ?_
    refine .bind h.gettoken fun t t' ht => ?_
    obtain ⟨rfl, ht⟩ := ht
    cases t with
    | none => exact .pure hc
    | some t =>
      cases t with
      | word w =>
        refine .ite .rfl (.throw _) (.bind (h.parseredirs fuel ?_) fun d d' hd => ih _ hd)
        exact hc.addArg (ht w rfl)
      | _ => exact .throw _

theorem backLoop (fuel : ℕ) (hc : CmdSame f P c c') :
    Related R (CmdSame f P) (Shell.backLoop S fuel c) (Shell.backLoop S' fuel c') := by
  induction fuel generalizing c c' with
  | zero => exact .throw _
  | succ fuel ih =>
    refine .bind (h.peek _ (by decide)) fun a a' ha => .ite (by rw [ha]) ?_ (.pure hc)
    exact .bind h.gettoken fun _ _ _ => ih hc.back

theorem parser (fuel : ℕ) :
    Related R (CmdSame f P) (Shell.parseline S fuel) (Shell.parseline S' fuel) ∧
    Related R (CmdSame f P) (Shell.parsepipe S fuel) (Shell.parsepipe S' fuel) ∧
    Related R (CmdSame f P) (Shell.parseexec S fuel) (Shell.parseexec S' fuel) ∧
    Related R (CmdSame f P) (Shell.parseblock S fuel) (Shell.parseblock S' fuel) := by
  induction fuel with
  | zero => exact ⟨.throw _, .throw _, .throw _, .throw _⟩
  | succ fuel ih =>
    obtain ⟨ihline, ihpipe, ihexec, ihblock⟩ := ih
    refine ⟨?_, ?_, ?_, ?_⟩
    · refine .bind ihpipe fun c c' hc => .bind (h.backLoop fuel hc) fun d d' hd => ?_
      refine .bind (h.peek _ (by decide)) fun a a' ha => .ite (by rw [ha]) ?_ (.pure hd)
      exact .bind h.gettoken fun _ _ _ => .bind ihline fun e e' he => .pure (hd.list he)
    · refine .bind ihexec fun c c' hc => ?_
      refine .bind (h.peek _ (by decide)) fun a a' ha => .ite (by rw [ha]) ?_ (.pure hc)
      exact .bind h.gettoken fun _ _ _ => .bind ihpipe fun e e' he => .pure (hc.pipe he)
    · refine .bind (h.peek _ (by decide)) fun a a' ha => .ite (by rw [ha]) ihblock ?_
      refine .bind (h.parseredirs fuel ?_) fun c c' hc => h.argsLoop fuel 0 hc
      exact ⟨rfl, fun w hw => absurd hw not_mem_nil⟩
    · refine .bind (h.peek _ (by decide)) fun a a' ha => .ite (by rw [ha]) ?_ (.throw _)
      refine .bind h.gettoken fun _ _ _ => .bind ihline fun c c' hc => ?_
      refine .bind (h.peek _ (by decide)) fun a a' ha => .ite (by rw [ha]) ?_ (.throw _)
      exact .bind h.gettoken fun _ _ _ => h.parseredirs fuel hc

end Source.Sim

end Sim

/-! ### The tokens of a line -/

/-- The token of a single character that is not part of a word. -/
def Tok.ofChar (c : Byte) : Option (Tok ω) :=
  if c = Shell.bar then some .bar
  else if c = Shell.lparen then some .lparen
  else if c = Shell.rparen then some .rparen
  else if c = Shell.semicolon then some .semicolon
  else if c = Shell.ampersand then some .ampersand
  else if c = Shell.less then some .less
  else if c = Shell.greater then some .greater
  else none

/-- The tokens of a line. Words and `>>` are as long as can be. -/
def tokens : Str → List (Tok Str)
  | [] => []
  | c :: s =>
    if isBlank c then tokens s
    else if c = greater ∧ s.head? = some greater then .append :: tokens s.tail
    else match Tok.ofChar c with
      | some t => t :: tokens s
      | none => .word (c :: s.takeWhile isWord) :: tokens (s.dropWhile isWord)
termination_by s => s.length
decreasing_by
  · exact Nat.lt_succ_self _
  · exact Nat.lt_succ_of_le (by rw [length_tail]; omega)
  · exact Nat.lt_succ_self _
  · exact Nat.lt_succ_of_le (dropWhile_sublist _).length_le

theorem isWord_iff {c : Byte} : isWord c = true ↔
    isBlank c = false ∧ Tok.ofChar c = (none : Option (Tok Str)) := by
  rw [isWord, decide_eq_true_iff, isBlank, decide_eq_false_iff_not]
  refine and_congr_right fun _ => ?_
  simp only [symbols, mem_cons, not_mem_nil, or_false, not_or, Tok.ofChar]
  split_ifs <;> simp_all

theorem Tok.char_ofChar {c : Byte} {t : Tok ω} (h : Tok.ofChar c = some t) : t.char = some c := by
  unfold Tok.ofChar at h
  split_ifs at h with h₁ h₂ h₃ h₄ h₅ h₆ h₇ <;> cases h <;> subst_vars <;> rfl

@[simp] theorem tokens_nil : tokens [] = [] := by
  rw [tokens]

theorem tokens_blank {c : Byte} {s : Str} (h : isBlank c = true) : tokens (c :: s) = tokens s := by
  rw [tokens, if_pos h]

theorem tokens_append (s : Str) : tokens (greater :: greater :: s) = .append :: tokens s := by
  rw [tokens, if_neg (by decide), if_pos ⟨rfl, rfl⟩, tail_cons]

theorem tokens_char {c : Byte} {s : Str} {t : Tok Str} (h : Tok.ofChar c = some t)
    (hs : ¬ (c = greater ∧ s.head? = some greater)) : tokens (c :: s) = t :: tokens s := by
  have hc : isBlank c = false := by
    unfold Tok.ofChar at h
    split_ifs at h with h₁ h₂ h₃ h₄ h₅ h₆ h₇ <;> subst_vars <;> rfl
  rw [tokens, hc, if_neg Bool.false_ne_true, if_neg hs, h]

theorem tokens_word {c : Byte} {s : Str} (h : isWord c = true) :
    tokens (c :: s) = .word (c :: s.takeWhile isWord) :: tokens (s.dropWhile isWord) := by
  have hg : c ≠ greater := by rintro rfl; exact absurd h (by decide)
  obtain ⟨hb, ht⟩ := isWord_iff.mp h
  rw [tokens, hb, if_neg Bool.false_ne_true, if_neg fun h => hg h.1, ht]

theorem tokens_ne_nil {c : Byte} (s : Str) (h : isBlank c = false) : tokens (c :: s) ≠ [] := by
  rw [tokens, h, if_neg Bool.false_ne_true]
  split_ifs
  · exact cons_ne_nil _ _
  · cases Tok.ofChar c <;> exact cons_ne_nil _ _

theorem tokens_dropWhile (s : Str) : tokens (s.dropWhile isBlank) = tokens s := by
  induction s with
  | nil => rfl
  | cons c s ih =>
    rw [dropWhile_cons]
    split_ifs with h
    · rw [ih, tokens_blank h]
    · rfl

theorem length_tokens_le (s : Str) : (tokens s).length ≤ s.length := by
  fun_induction tokens s with
  | case1 => exact Nat.le_refl _
  | case2 c s h ih => exact Nat.le_succ_of_le ih
  | case3 c s _ h ih =>
    rw [length_tail] at ih
    rw [length_cons, length_cons]
    omega
  | case4 c s _ _ t h ih => exact Nat.succ_le_succ ih
  | case5 c s _ _ h ih =>
    exact Nat.succ_le_succ (ih.trans (dropWhile_sublist _).length_le)

/-! ### The bytes of a line -/

variable {b : Str} {s fuel : ℕ}

theorem charAt_eq (hs : s ≤ b.length) : charAt b s = .ok ((b.drop s).head?.getD 0) := by
  rw [charAt, head?_drop]
  cases h : b[s]? with
  | some c => rfl
  | none => exact if_pos (le_antisymm hs (getElem?_eq_none_iff.mp h))

theorem scan_eq (p : Byte → Bool) (hs : s ≤ b.length) (hfuel : b.length ≤ s + fuel) :
    scan b p fuel s = .ok (s + ((b.drop s).takeWhile p).length) := by
  induction fuel generalizing s with
  | zero =>
    rw [scan, drop_of_length_le (Nat.add_zero s ▸ hfuel)]
    rfl
  | succ fuel ih =>
    rw [scan]
    by_cases hlt : s < b.length
    · rw [if_pos hlt, charAt_eq hs, drop_eq_getElem_cons hlt, takeWhile_cons]
      change (if p b[s] = true then scan b p fuel (s + 1) else .ok s) = _
      split_ifs with h
      · have hs' : s + 1 ≤ b.length := hlt
        rw [ih hs' (by omega), length_cons]
        congr 1
        omega
      · rfl
    · rw [if_neg hlt, drop_of_length_le (by omega)]
      rfl

theorem drop_add_takeWhile (p : Byte → Bool) (b : Str) (s : ℕ) :
    b.drop (s + ((b.drop s).takeWhile p).length) = (b.drop s).dropWhile p := by
  rw [← drop_drop]
  nth_rewrite 2 [← takeWhile_append_dropWhile (p := p) (l := b.drop s)]
  exact drop_left

theorem add_takeWhile_le (p : Byte → Bool) (hs : s ≤ b.length) :
    s + ((b.drop s).takeWhile p).length ≤ b.length := by
  have h := (takeWhile_sublist (l := b.drop s) p).length_le
  rw [length_drop] at h
  omega

variable {r : Str}

theorem lt_of_drop_eq_cons {c : Byte} (h : b.drop s = c :: r) : s < b.length := by
  have hlen := congrArg length h
  rw [length_drop, length_cons] at hlen
  omega

theorem drop_succ_of_drop_eq_cons {c : Byte} (h : b.drop s = c :: r) : b.drop (s + 1) = r := by
  rw [← drop_drop, h]
  rfl

def slice (b : Str) (w : ℕ × ℕ) : Str := (b.drop w.1).take (w.2 - w.1)

/-- A word of a line, as long as can be. -/
structure IsSpan (b : Str) (w : ℕ × ℕ) : Prop where
  le : w.1 ≤ w.2
  le_length : w.2 ≤ b.length
  word (c : Byte) (hc : c ∈ slice b w) : isWord c = true
  stop (c : Byte) (hc : b[w.2]? = some c) : isWord c = false

theorem Tok.map_ofChar (f : ω → ω') (c : Byte) : (Tok.ofChar c).map (Tok.map f) = Tok.ofChar c := by
  unfold Tok.ofChar
  split_ifs <;> rfl

theorem tokenAt_char {c : Byte} {t : Tok (ℕ × ℕ)} (h : b.drop s = c :: r)
    (ht : Tok.ofChar c = some t) (hr : ¬ (c = greater ∧ r.head? = some greater)) :
    tokenAt b s = .ok (some t, s + 1) := by
  have hs := lt_of_drop_eq_cons h
  have hs' : s + 1 ≤ b.length := hs
  rw [tokenAt, charAt_eq hs.le, charAt_eq hs', h, drop_succ_of_drop_eq_cons h]
  simp only [bind, Except.bind, pure, Except.pure, head?_cons, Option.getD_some]
  unfold Tok.ofChar at ht
  split_ifs at ht with h₁ h₂ h₃ h₄ h₅ h₆ h₇ <;> cases ht <;> subst c
  iterate 6 rfl
  have hg : r.head?.getD 0 ≠ greater := by
    cases r with
    | nil => decide
    | cons c r => exact fun hc => hr ⟨rfl, congrArg some hc⟩
  exact if_neg hg

theorem tokenAt_append (h : b.drop s = greater :: greater :: r) :
    tokenAt b s = .ok (some .append, s + 2) := by
  have hs := lt_of_drop_eq_cons h
  have hs' : s + 1 ≤ b.length := hs
  rw [tokenAt, charAt_eq hs.le, charAt_eq hs', h, drop_succ_of_drop_eq_cons h]
  rfl

theorem tokenAt_word {c : Byte} (h : b.drop s = c :: r) (hc : isWord c = true) (h0 : c ≠ 0) :
    tokenAt b s = .ok (some (.word (s, s + ((c :: r).takeWhile isWord).length)),
      s + ((c :: r).takeWhile isWord).length) := by
  have hs := lt_of_drop_eq_cons h
  have hchar : charAt b s = .ok c := by
    rw [charAt_eq hs.le, h]
    rfl
  have ht := (isWord_iff.mp hc).2
  unfold Tok.ofChar at ht
  split_ifs at ht with h₁ h₂ h₃ h₄ h₅ h₆ h₇
  rw [tokenAt, hchar, scan_eq isWord hs.le (by omega), h]
  simp only [bind, Except.bind, pure, Except.pure]
  rw [if_neg h0, if_neg h₁, if_neg h₂, if_neg h₃, if_neg h₄, if_neg h₅, if_neg h₆, if_neg h₇]

/-- The places of a line and the tokens that are left there. -/
def Left (b : Str) (s : ℕ) (ts : List (Tok Str)) : Prop :=
  s ≤ b.length ∧ tokens (b.drop s) = ts

theorem isSpan_of_drop {c : Byte} (h : b.drop s = c :: r) :
    slice b (s, s + ((c :: r).takeWhile isWord).length) = (c :: r).takeWhile isWord ∧
      IsSpan b (s, s + ((c :: r).takeWhile isWord).length) := by
  have hslice : slice b (s, s + ((c :: r).takeWhile isWord).length) =
      (c :: r).takeWhile isWord := by
    rw [slice, Nat.add_sub_cancel_left, h]
    nth_rewrite 2 [← takeWhile_append_dropWhile (p := isWord) (l := c :: r)]
    exact take_left
  have hle := add_takeWhile_le isWord (lt_of_drop_eq_cons h).le
  rw [h] at hle
  refine ⟨hslice, ⟨Nat.le_add_right _ _, hle, fun c' hc' => ?_, fun c' hc' => ?_⟩⟩
  · rw [hslice] at hc'
    exact mem_takeWhile_imp hc'
  · rw [← head?_drop, ← h, drop_add_takeWhile] at hc'
    have hd := head?_dropWhile_not isWord (b.drop s)
    rw [hc'] at hd
    simpa using hd

theorem exists_scan_blanks (hs : s ≤ b.length) : ∃ q, scan b isBlank b.length s = .ok q ∧
    q ≤ b.length ∧ tokens (b.drop q) = tokens (b.drop s) ∧
      ∀ c r, b.drop q = c :: r → isBlank c = false := by
  refine ⟨_, scan_eq isBlank hs (by omega), add_takeWhile_le isBlank hs, ?_, fun c r hc => ?_⟩
  · rw [drop_add_takeWhile, tokens_dropWhile]
  · rw [drop_add_takeWhile] at hc
    have hd := head?_dropWhile_not isBlank (b.drop s)
    rw [hc] at hd
    simpa using hd

theorem ne_zero_of_drop {c : Byte} (h0 : 0 ∉ b) (h : b.drop s = c :: r) : c ≠ 0 := by
  rintro rfl
  exact h0 (drop_subset s b (h ▸ mem_cons_self))

theorem gettoken_rel (h0 : 0 ∉ b) :
    Related (Left b) (TokSame (slice b) (IsSpan b)) (gettoken b) toks.gettoken := by
  intro s ts hs
  obtain ⟨hs, rfl⟩ := hs
  obtain ⟨q, hscan, hq, htokens, hstop⟩ := exists_scan_blanks hs
  rw [gettoken, hscan, ← htokens]
  -- it is enough to see the token; the blanks behind it do not matter
  suffices htok : ∃ t e, tokenAt b q = .ok (t, e) ∧ e ≤ b.length ∧
      TokSame (slice b) (IsSpan b) t (tokens (b.drop q)).head? ∧
      tokens (b.drop e) = (tokens (b.drop q)).tail by
    obtain ⟨t, e, heq, he, ht, hrest⟩ := htok
    obtain ⟨q', hscan', hq', htokens', -⟩ := exists_scan_blanks he
    simp only [bind, Except.bind, heq, hscan', pure, Except.pure]
    exact ⟨ht, hq', htokens'.trans hrest⟩
  cases hd : b.drop q with
  | nil =>
    refine ⟨none, q, ?_, hq, ⟨?_, fun w hw => ?_⟩, ?_⟩
    · rw [tokenAt, charAt_eq hq, hd]
      rfl
    · rw [tokens_nil]
      rfl
    · exact absurd hw (by simp)
    · rw [hd, tokens_nil, tail_nil]
  | cons c r =>
    have hc := hstop c r hd
    have hlt := lt_of_drop_eq_cons hd
    have hr := drop_succ_of_drop_eq_cons hd
    by_cases hgg : c = greater ∧ r.head? = some greater
    · obtain ⟨rfl, hgg⟩ := hgg
      obtain ⟨r, rfl⟩ : ∃ r', r = greater :: r' := by
        cases r with
        | nil => exact absurd hgg (by simp)
        | cons c r => exact ⟨r, by rw [Option.some.inj hgg]⟩
      have hlt' := lt_of_drop_eq_cons hr
      refine ⟨some .append, q + 2, tokenAt_append hd, hlt', ⟨?_, fun w hw => ?_⟩, ?_⟩
      · rw [tokens_append]
        rfl
      · exact absurd hw (by simp)
      · rw [tokens_append, tail_cons, drop_succ_of_drop_eq_cons hr]
    cases ht : (Tok.ofChar c : Option (Tok (ℕ × ℕ))) with
    | some t =>
      have ht' := Tok.map_ofChar (slice b) c
      rw [ht, Option.map_some] at ht'
      refine ⟨some t, q + 1, tokenAt_char hd ht hgg, hlt, ⟨?_, fun w hw => ?_⟩, ?_⟩
      · rw [tokens_char ht'.symm hgg]
        rfl
      · have hchar := Tok.char_ofChar ht
        rw [Option.some.inj hw] at hchar
        exact absurd hchar (by simp [Tok.char])
      · rw [tokens_char ht'.symm hgg, hr, tail_cons]
    | none =>
      have hword : isWord c = true := by
        refine isWord_iff.mpr ⟨hc, ?_⟩
        rw [← Tok.map_ofChar (slice b), ht]
        rfl
      obtain ⟨hslice, hspan⟩ := isSpan_of_drop hd
      have hle := add_takeWhile_le isWord hq
      rw [hd] at hle
      refine ⟨_, _, tokenAt_word hd hword (ne_zero_of_drop h0 hd), hle, ⟨?_, fun w hw => ?_⟩, ?_⟩
      · rw [tokens_word hword, Option.map_some, Tok.map, hslice, takeWhile_cons, if_pos hword]
        rfl
      · obtain rfl := Tok.word.inj (Option.some.inj hw)
        exact hspan
      · rw [tokens_word hword, tail_cons, ← hd, drop_add_takeWhile, hd, dropWhile_cons,
          if_pos hword]

theorem begins_tokens {c : Byte} (r : Str) (hc : isBlank c = false) {cs : List Byte}
    (hcs : cs ⊆ symbols) : begins cs (tokens (c :: r)) = decide (c ∈ cs) := by
  by_cases hgg : c = greater ∧ r.head? = some greater
  · obtain ⟨rfl, hgg⟩ := hgg
    cases r with
    | nil => exact absurd hgg (by simp)
    | cons c r =>
      rw [Option.some.inj hgg, tokens_append]
      rfl
  cases ht : (Tok.ofChar c : Option (Tok Str)) with
  | some t =>
    rw [tokens_char ht hgg]
    simp [begins, Tok.char_ofChar ht, oneOf]
  | none =>
    have hword := isWord_iff.mpr ⟨hc, ht⟩
    have hmem : c ∉ cs := fun h => (of_decide_eq_true hword).2 (hcs h)
    rw [tokens_word hword, decide_eq_false hmem]
    rfl

theorem peek_rel (h0 : 0 ∉ b) (cs : List Byte) (hcs : cs ⊆ symbols) :
    Related (Left b) Eq (peek b cs) (toks.peek cs) := by
  intro s ts hs
  obtain ⟨hs, rfl⟩ := hs
  obtain ⟨q, hscan, hq, htokens, hstop⟩ := exists_scan_blanks hs
  rw [peek, hscan, ← htokens]
  simp only [bind, Except.bind, charAt_eq hq, pure, Except.pure]
  refine ⟨?_, hq, rfl⟩
  cases hd : b.drop q with
  | nil =>
    rw [tokens_nil]
    exact decide_eq_false fun h => h.1 rfl
  | cons c r =>
    rw [begins_tokens r (hstop c r hd) hcs]
    exact decide_eq_decide.mpr (and_iff_right (ne_zero_of_drop h0 hd))

/-- A word that `gettoken` finds in the line, at some place. -/
structure IsToken (b : Str) (w : ℕ × ℕ) : Prop extends IsSpan b w where
  found : ∃ s s', gettoken b s = .ok (some (.word w), s')

theorem line_sim (h0 : 0 ∉ b) : (line b).Sim (slice b) (IsToken b) (Left b) toks where
  peek := peek_rel h0
  gettoken := (gettoken_rel h0).imp fun s s' _ _ hs ht =>
    ⟨ht.1, fun w hw => ⟨ht.2 w hw, s, s', hw ▸ hs⟩⟩

/-! ### `nulterminate` -/

theorem Cmd.ends_eq (cmd : Cmd (ℕ × ℕ)) : cmd.ends = cmd.words.map Prod.snd := by
  induction cmd with
  | exec argv => rfl
  | redir cmd file dir ih => rw [ends, words, map_append, ih, map_singleton]
  | pipe left right ihl ihr | list left right ihl ihr => rw [ends, words, map_append, ihl, ihr]
  | back cmd ih => exact ih

theorem length_foldl_set (es : List ℕ) (l : List Byte) :
    (es.foldl (fun l e => l.set e 0) l).length = l.length := by
  induction es generalizing l with
  | nil => rfl
  | cons e es ih => rw [foldl_cons, ih, length_set]

theorem getElem?_foldl_set (es : List ℕ) (l : List Byte) (i : ℕ) :
    (es.foldl (fun l e => l.set e 0) l)[i]? = if i ∈ es ∧ i < l.length then some 0 else l[i]? := by
  induction es generalizing l with
  | nil => simp
  | cons e es ih =>
    rw [foldl_cons, ih, length_set, getElem?_set]
    by_cases hlt : i < l.length
    · by_cases he : e = i
      · subst he
        simp [hlt]
      · simp [hlt, he, Ne.symm he]
    · simp only [hlt, and_false, if_false, getElem?_eq_none (Nat.le_of_not_lt hlt)]
      split_ifs with he hlt'
      · exact absurd (he ▸ hlt') hlt
      · rfl
      · rfl

theorem stringAt_nulterminate (h0 : 0 ∉ b) {cmd : Cmd (ℕ × ℕ)}
    (hcmd : ∀ w ∈ cmd.words, IsToken b w) {w : ℕ × ℕ} (hw : w ∈ cmd.words) :
    stringAt (nulterminate b cmd) w.1 = slice b w := by
  have hspan := hcmd w hw
  have hlen : (nulterminate b cmd).length = b.length + 1 := by
    rw [nulterminate, length_foldl_set, length_append, length_singleton]
  have hstop : (nulterminate b cmd)[w.2]? = some 0 := by
    rw [nulterminate, getElem?_foldl_set, if_pos]
    refine ⟨cmd.ends_eq ▸ mem_map_of_mem hw, ?_⟩
    rw [length_append, length_singleton]
    exact Nat.lt_succ_of_le hspan.le_length
  have hbytes : ((nulterminate b cmd).drop w.1).take (w.2 - w.1) = slice b w := by
    refine ext_getElem? fun i => ?_
    rw [slice, getElem?_take, getElem?_take]
    split_ifs with hi
    · have hlt : w.1 + i < b.length := by have := hspan.le_length; omega
      have hmem : b[w.1 + i] ∈ slice b w := by
        refine mem_of_getElem? (i := i) ?_
        rw [slice, getElem?_take, if_pos hi, getElem?_drop, getElem?_eq_getElem hlt]
      have hends : w.1 + i ∉ cmd.ends := by
        intro he
        rw [cmd.ends_eq] at he
        obtain ⟨w', hw', he⟩ := mem_map.mp he
        have hword := (hcmd w' hw').stop b[w.1 + i] (by rw [he, getElem?_eq_getElem hlt])
        exact Bool.false_ne_true (hword.symm.trans (hspan.word _ hmem))
      rw [getElem?_drop, getElem?_drop, nulterminate, getElem?_foldl_set,
        if_neg fun h => hends h.1, getElem?_append_left hlt]
    · rfl
  have hrest : (nulterminate b cmd).drop w.2 = 0 :: (nulterminate b cmd).drop (w.2 + 1) := by
    have hlt : w.2 < (nulterminate b cmd).length := by have := hspan.le_length; omega
    rw [getElem?_eq_getElem hlt] at hstop
    rw [drop_eq_getElem_cons hlt, Option.some.inj hstop]
  have hsplit : (nulterminate b cmd).drop w.1 =
      slice b w ++ 0 :: (nulterminate b cmd).drop (w.2 + 1) := by
    rw [← hrest, ← hbytes]
    nth_rewrite 1 [← take_append_drop (w.2 - w.1) ((nulterminate b cmd).drop w.1)]
    rw [drop_drop, Nat.add_sub_cancel' hspan.le]
  rw [stringAt, hsplit, takeWhile_append_of_pos, takeWhile_cons]
  · simp
  · intro c hc
    refine decide_eq_true fun h => h0 ?_
    rw [← h]
    exact drop_subset _ _ (take_subset _ _ hc)

theorem Cmd.map_congr {f g : ω → ω'} {c : Cmd ω} (h : ∀ w ∈ c.words, f w = g w) :
    c.map f = c.map g := by
  induction c with
  | exec argv => exact congrArg exec (map_congr_left h)
  | redir c file dir ih =>
    simp only [words, mem_append, mem_singleton] at h
    rw [Cmd.map, Cmd.map, ih fun w hw => h w (.inl hw), h file (.inr rfl)]
  | pipe left right ihl ihr | list left right ihl ihr =>
    simp only [words, mem_append] at h
    rw [Cmd.map, Cmd.map, ihl fun w hw => h w (.inl hw), ihr fun w hw => h w (.inr hw)]
  | back c ih => rw [Cmd.map, Cmd.map, ih h]

/-! ### `parsecmd` -/

/-- What the parser does on tokens: all of them are to be parsed. -/
def accept (fuel : ℕ) (ts : List (Tok Str)) : Except Stop (Cmd Str) := do
  let (cmd, ts) ← parseline toks fuel ts
  if ts ≠ [] then .error (.panic .leftovers) else return cmd

theorem parseline_line (h0 : 0 ∉ b) (fuel : ℕ) :
    Same (Left b) (CmdSame (slice b) (IsToken b)) (parseline (line b) fuel 0)
      (parseline toks fuel (tokens b)) :=
  ((line_sim h0).parser fuel).1 0 (tokens b) ⟨Nat.zero_le _, rfl⟩

theorem parsecmd_eq (h0 : 0 ∉ b) : parsecmd b = accept (enough b.length) (tokens b) := by
  have hparse := parseline_line h0 (enough b.length)
  rw [parsecmd, accept]
  cases hts : parseline toks (enough b.length) (tokens b) with
  | error e =>
    cases hb : parseline (line b) (enough b.length) 0 with
    | error e' =>
      rw [hb, hts] at hparse
      rw [show e' = e from hparse]
      rfl
    | ok r => rw [hb, hts] at hparse; exact hparse.elim
  | ok r' =>
    cases hb : parseline (line b) (enough b.length) 0 with
    | error e' => rw [hb, hts] at hparse; exact hparse.elim
    | ok r =>
      obtain ⟨cmd, s⟩ := r
      obtain ⟨cmd', ts⟩ := r'
      rw [hb, hts] at hparse
      obtain ⟨⟨rfl, hspans⟩, hs, rfl⟩ := hparse
      obtain ⟨q, hscan, hq, htokens, hstop⟩ := exists_scan_blanks hs
      simp only [bind, Except.bind, peek, hscan, charAt_eq hq, pure, Except.pure]
      have hend : q = b.length ↔ tokens (b.drop s) = [] := by
        rw [← htokens]
        refine ⟨fun h => by rw [h, drop_length, tokens_nil], fun h => ?_⟩
        cases hd : b.drop q with
        | nil => exact le_antisymm hq (drop_eq_nil_iff.mp hd)
        | cons c r => exact absurd (hd ▸ h) (tokens_ne_nil r (hstop c r hd))
      by_cases h : q = b.length
      · rw [if_neg (not_not.mpr h), if_neg (not_not.mpr (hend.mp h))]
        exact congrArg _ (Cmd.map_congr fun w hw => stringAt_nulterminate h0 hspans hw)
      · rw [if_pos h, if_pos fun h' => h (hend.mpr h')]

/-- After `parsecmd` has accepted a line, every argument and every file name of the tree is read as
the word that `gettoken` has found in the line, and NULs have been written to the line and the NUL
behind it only. -/
theorem words_cut (b : Str) (h0 : 0 ∉ b) (c : Cmd Str) (h : parsecmd b = .ok c) :
    ∃ cmd s, parseline (line b) (enough b.length) 0 = .ok (cmd, s) ∧
      c = cmd.map (fun w => stringAt (nulterminate b cmd) w.1) ∧
      (∀ w ∈ cmd.words, (∃ s s', gettoken b s = .ok (some (.word w), s')) ∧
        stringAt (nulterminate b cmd) w.1 = slice b w) ∧
      ∀ e ∈ cmd.ends, e < b.length + 1 := by
  have hparse := parseline_line h0 (enough b.length)
  rw [parsecmd] at h
  cases hb : parseline (line b) (enough b.length) 0 with
  | error e =>
    rw [hb] at h
    cases h
  | ok r =>
    obtain ⟨cmd, s⟩ := r
    have hwords : ∀ w ∈ cmd.words, IsToken b w := by
      cases hts : parseline toks (enough b.length) (tokens b) with
      | error e => rw [hb, hts] at hparse; exact hparse.elim
      | ok r' =>
        rw [hb, hts] at hparse
        exact hparse.1.2
    refine ⟨cmd, s, rfl, ?_, fun w hw => ⟨(hwords w hw).found, ?_⟩, fun e he => ?_⟩
    · rw [hb] at h
      simp only [bind, Except.bind] at h
      split at h
      · cases h
      · split_ifs at h
        exact (Except.ok.inj h).symm
    · exact stringAt_nulterminate h0 hwords hw
    · rw [cmd.ends_eq] at he
      obtain ⟨w, hw, rfl⟩ := mem_map.mp he
      exact Nat.lt_succ_of_le (hwords w hw).le_length

/-- The line `a>b;c|d`: each NUL but the last one takes the place of an operator. -/
theorem words_cut_tight : ∃ cmd s,
    parseline (line [97, 62, 98, 59, 99, 124, 100]) 40 0 = .ok (cmd, s) ∧
      nulterminate [97, 62, 98, 59, 99, 124, 100] cmd = [97, 0, 98, 0, 99, 0, 100, 0] ∧
      ∀ w ∈ cmd.words, stringAt [97, 0, 98, 0, 99, 0, 100, 0] w.1 =
        slice [97, 62, 98, 59, 99, 124, 100] w := by
  obtain ⟨cmd, s, hcmd, -, hwords, -⟩ := words_cut [97, 62, 98, 59, 99, 124, 100] (by decide)
    (.list (.redir (.exec [[97]]) [98] .output) (.pipe (.exec [[99]]) (.exec [[100]]))) rfl
  have hcut : nulterminate [97, 62, 98, 59, 99, 124, 100] cmd = [97, 0, 98, 0, 99, 0, 100, 0] := by
    cases hcmd
    rfl
  refine ⟨cmd, s, hcmd, hcut, fun w hw => ?_⟩
  rw [← hcut]
  exact (hwords w hw).2

end Dave.Shell
