import Dave.User.Shell.Parse
import Mathlib.Logic.Function.Iterate

/-!
# The grammar of the shell

The grammar is

* line := pipe `&`* [`;` line]
* pipe := exec [`|` pipe]
* exec := `(` line `)` redir* | redir* (word redir*)*, with at most nine words
* redir := (`<` | `>` | `>>`) word

on the tokens of a line, and each derivation gives a tree. The parser finds the tree of a line that
is derived, and ends in `panic` for every other.

## Main results

* `parser_sound`: what is consumed is derived by the grammar.
* `parser_complete`: every sentence of the grammar is consumed.
-/

namespace Dave.Shell

open List

variable {ω : Type}

/-! ### Derivations -/

/-- The redirection that a token begins. -/
def Tok.dir : Tok ω → Option Dir
  | .less => some .input
  | .greater => some .output
  | .append => some .output
  | _ => none

/-- redir* -/
inductive Redirs : List (Tok ω) → List (ω × Dir) → Prop where
  | nil : Redirs [] []
  | cons {t : Tok ω} {d : Dir} {w : ω} {ts : List (Tok ω)} {rs : List (ω × Dir)}
    (ht : t.dir = some d)
      (h : Redirs ts rs) : Redirs (t :: .word w :: ts) ((w, d) :: rs)

/-- (word redir*)* -/
inductive Args : List (Tok ω) → List ω → List (ω × Dir) → Prop where
  | nil : Args [] [] []
  | word (w : ω) {r ts : List (Tok ω)} {ws : List ω} {rs rs' : List (ω × Dir)} (hr : Redirs r rs)
      (h : Args ts ws rs') : Args (.word w :: (r ++ ts)) (w :: ws) (rs ++ rs')

/-- A command with redirections, the last of them outermost. -/
def wrap (cmd : Cmd ω) (rs : List (ω × Dir)) : Cmd ω :=
  rs.foldl (fun cmd r => .redir cmd r.1 r.2) cmd

mutual

/-- line := pipe `&`* [`;` line] -/
inductive Line : List (Tok ω) → Cmd ω → Prop where
  | plain {t : List (Tok ω)} {c : Cmd ω} (h : Pipe t c) (k : ℕ) :
      Line (t ++ replicate k .ampersand) (Cmd.back^[k] c)
  | seq {t t' : List (Tok ω)} {c c' : Cmd ω} (h : Pipe t c) (k : ℕ) (h' : Line t' c') :
      Line (t ++ (replicate k .ampersand ++ .semicolon :: t')) (.list (Cmd.back^[k] c) c')

/-- pipe := exec [`|` pipe] -/
inductive Pipe : List (Tok ω) → Cmd ω → Prop where
  | one {t : List (Tok ω)} {c : Cmd ω} (h : Exec t c) : Pipe t c
  | more {t t' : List (Tok ω)} {c c' : Cmd ω} (h : Exec t c) (h' : Pipe t' c') :
      Pipe (t ++ .bar :: t') (.pipe c c')

/-- exec := `(` line `)` redir* | redir* (word redir*)* -/
inductive Exec : List (Tok ω) → Cmd ω → Prop where
  | block {t r : List (Tok ω)} {c : Cmd ω} {rs : List (ω × Dir)} (h : Line t c) (hr : Redirs r rs) :
      Exec (.lparen :: (t ++ .rparen :: r)) (wrap c rs)
  | simple {r t : List (Tok ω)} {ws : List ω} {rs rs' : List (ω × Dir)} (hr : Redirs r rs)
      (h : Args t ws rs') (hlen : ws.length < maxArgs) :
      Exec (r ++ t) (wrap (.exec ws) (rs ++ rs'))

end

theorem wrap_append (c : Cmd ω) (rs rs' : List (ω × Dir)) :
    wrap (wrap c rs) rs' = wrap c (rs ++ rs') :=
  foldl_append.symm

theorem wrap_addArg (argv : List ω) (rs : List (ω × Dir)) (w : ω) :
    (wrap (.exec argv) rs).addArg w = wrap (.exec (argv ++ [w])) rs := by
  induction rs using reverseRecOn with
  | nil => rfl
  | append_singleton rs r ih =>
    rw [← wrap_append, ← wrap_append, ← ih]
    rfl

/-! ### Tokens as a source -/

/-- The first character of a token that is not a word. -/
def Tok.char : Tok ω → Option Byte
  | .bar => some Shell.bar
  | .lparen => some Shell.lparen
  | .rparen => some Shell.rparen
  | .semicolon => some Shell.semicolon
  | .ampersand => some Shell.ampersand
  | .less => some Shell.less
  | .greater => some Shell.greater
  | .append => some Shell.greater
  | .word _ => none

/-- Whether the next token begins with one of these characters. -/
def begins (cs : List Byte) (ts : List (Tok ω)) : Bool :=
  ts.head?.any fun t => t.char.any (oneOf cs)

/-- A list of tokens as a source. -/
def toks : Source (List (Tok ω)) ω where
  peek cs := fun ts => .ok (begins cs ts, ts)
  gettoken := fun ts => .ok (ts.head?, ts.tail)

variable {E : Stop → Prop} {ts rest : List (Tok ω)} {fuel : ℕ}

@[simp] theorem wp_peek_toks (cs : List Byte) {Q : Bool → List (Tok ω) → Prop} :
    Wp E (toks.peek cs) Q ts ↔ Q (begins cs ts) ts := .rfl

@[simp] theorem wp_gettoken_toks {Q : Option (Tok ω) → List (Tok ω) → Prop} :
    Wp E (toks.gettoken) Q ts ↔ Q ts.head? ts.tail := .rfl

variable {cs : List Byte}

theorem begins_iff : begins cs ts = true ↔ ∃ t ts' c, ts = t :: ts' ∧ t.char = some c ∧ c ∈ cs := by
  cases ts with
  | nil => simp [begins]
  | cons t ts =>
    cases h : t.char with
    | none => simp [begins, h]
    | some c => simp [begins, h, oneOf]

/-! ### Soundness -/

/-- The parser ends in `panic`. -/
def IsPanic (e : Stop) : Prop := ∃ p, e = .panic p

/-- What is consumed are redirections, which are wrapped around the command. -/
theorem parseredirs_sound (hfuel : ts.length < fuel) (c : Cmd ω) :
    Wp IsPanic (parseredirs toks fuel c) (fun c' ts' => ∃ r rs, ts = r ++ ts' ∧ Redirs r rs ∧
      c' = wrap c rs) ts := by
  induction fuel generalizing ts c with
  | zero => exact absurd hfuel (Nat.not_lt_zero _)
  | succ fuel ih =>
    rw [parseredirs, wp_bind, wp_peek_toks]
    by_cases hb : begins [less, greater] ts = true
    · rw [if_pos hb]
      obtain ⟨t, ts₁, ch, rfl, hch, hmem⟩ := begins_iff.mp hb
      simp only [wp_bind, wp_gettoken_toks, head?_cons, tail_cons]
      rw [length_cons] at hfuel
      cases ts₁ with
      | nil => exact ⟨_, rfl⟩
      | cons u ts₂ =>
        rw [length_cons] at hfuel
        cases u with
        | word w =>
          have hnext {d : Dir} (hd : t.dir = some d) : Wp IsPanic
              (parseredirs toks fuel (.redir c w d)) (fun c' ts' => ∃ r rs,
                t :: .word w :: ts₂ = r ++ ts' ∧ Redirs r rs ∧ c' = wrap c rs) ts₂ := by
            refine (ih (by omega) _).mono fun c' ts' h => ?_
            obtain ⟨r, rs, rfl, hr, rfl⟩ := h
            exact ⟨t :: .word w :: r, (w, d) :: rs, rfl, .cons hd hr, rfl⟩
          cases t with
          | less | greater | append => exact hnext rfl
          | word w => exact absurd hch (by simp [Tok.char])
          | _ => simp [Tok.char] at hch; subst hch; simp at hmem
        | _ => exact ⟨_, rfl⟩
    · rw [if_neg hb]
      exact ⟨[], [], rfl, .nil, rfl⟩

/-- What is consumed are words and redirections, in any order. -/
theorem argsLoop_sound (hfuel : ts.length < fuel) {argv : List ω} (rs₀ : List (ω × Dir))
    (hargv : argv.length < maxArgs) :
    Wp IsPanic (argsLoop toks fuel argv.length (wrap (.exec argv) rs₀)) (fun c ts' => ∃ t ws rs,
      ts = t ++ ts' ∧ Args t ws rs ∧ (argv ++ ws).length < maxArgs ∧
        c = wrap (.exec (argv ++ ws)) (rs₀ ++ rs)) ts := by
  have hdone : ∃ t ws rs, ts = t ++ ts ∧ Args t ws rs ∧ (argv ++ ws).length < maxArgs ∧
      wrap (.exec argv) rs₀ = wrap (.exec (argv ++ ws)) (rs₀ ++ rs) :=
    ⟨[], [], [], rfl, .nil, by rwa [append_nil], by rw [append_nil, append_nil]⟩
  induction fuel generalizing ts argv rs₀ with
  | zero => exact absurd hfuel (Nat.not_lt_zero _)
  | succ fuel ih =>
    rw [argsLoop, wp_bind, wp_peek_toks]
    by_cases hb : begins [bar, rparen, ampersand, semicolon] ts = true
    · rw [if_pos hb]
      exact hdone
    rw [if_neg hb, wp_bind, wp_gettoken_toks]
    cases ts with
    | nil => exact hdone
    | cons t ts₁ =>
      rw [length_cons] at hfuel
      cases t with
      | word w =>
        simp only [head?_cons, tail_cons]
        by_cases hmax : maxArgs ≤ argv.length + 1
        · rw [if_pos hmax]
          exact ⟨_, rfl⟩
        rw [if_neg hmax, wp_bind, wrap_addArg]
        refine (parseredirs_sound (by omega) _).mono fun c ts₂ h => ?_
        obtain ⟨r, rs, rfl, hr, rfl⟩ := h
        rw [length_append] at hfuel
        have hlen : (argv ++ [w]).length = argv.length + 1 := by simp
        rw [wrap_append, ← hlen]
        refine (ih (by omega) (rs₀ ++ rs) (by omega) ?_).mono fun c ts₃ h => ?_
        · exact ⟨[], [], [], rfl, .nil, by rw [append_nil]; omega, by rw [append_nil, append_nil]⟩
        obtain ⟨t, ws, rs', rfl, ht, hws, rfl⟩ := h
        rw [append_assoc, singleton_append] at hws ⊢
        refine ⟨.word w :: (r ++ t), w :: ws, rs ++ rs', ?_, .word w hr ht, hws, ?_⟩
        · rw [cons_append, append_assoc]
        · rw [append_assoc]
      | _ => exact ⟨_, rfl⟩

theorem backLoop_sound (hfuel : ts.length < fuel) (c : Cmd ω) :
    Wp IsPanic (backLoop toks fuel c) (fun c' ts' => ∃ k,
      ts = replicate k .ampersand ++ ts' ∧ c' = Cmd.back^[k] c) ts := by
  induction fuel generalizing ts c with
  | zero => exact absurd hfuel (Nat.not_lt_zero _)
  | succ fuel ih =>
    rw [backLoop, wp_bind, wp_peek_toks]
    by_cases hb : begins [ampersand] ts = true
    · rw [if_pos hb]
      obtain ⟨t, ts₁, ch, rfl, hch, hmem⟩ := begins_iff.mp hb
      obtain rfl : t = .ampersand := by
        rw [mem_singleton.mp hmem] at hch
        cases t <;> simp [Tok.char] at hch
        rfl
      simp only [wp_bind, wp_gettoken_toks, tail_cons]
      rw [length_cons] at hfuel
      refine (ih (by omega) _).mono fun c' ts' h => ?_
      obtain ⟨k, rfl, rfl⟩ := h
      exact ⟨k + 1, rfl, rfl⟩
    · rw [if_neg hb]
      exact ⟨0, rfl, rfl⟩

theorem eq_of_begins {c : Byte} {t : Tok ω} (ht : t.char = some c) (hc : c ≠ greater)
    (h : begins [c] ts = true) : ∃ ts', ts = t :: ts' := by
  obtain ⟨t', ts', c', rfl, hc', hmem⟩ := begins_iff.mp h
  rw [mem_singleton.mp hmem, ← ht] at hc'
  refine ⟨ts', congrArg (· :: ts') ?_⟩
  cases t <;> cases t' <;> simp [Tok.char] at hc' ht ⊢ <;> exact absurd ht.symm hc

/-- What the parser consumes is derived by the grammar, with the command that it returns. By
induction on the fuel, for all four procedures at the same time. -/
theorem parser_sound (fuel : ℕ) : (∀ ts : List (Tok ω), enough ts.length ≤ fuel →
      Wp IsPanic (parseline toks fuel) (fun c ts' => ∃ t, ts = t ++ ts' ∧ Line t c) ts) ∧
    (∀ ts : List (Tok ω), enough ts.length ≤ fuel + 1 →
      Wp IsPanic (parsepipe toks fuel) (fun c ts' => ∃ t, ts = t ++ ts' ∧ Pipe t c) ts) ∧
    (∀ ts : List (Tok ω), enough ts.length ≤ fuel + 2 →
      Wp IsPanic (parseexec toks fuel) (fun c ts' => ∃ t, ts = t ++ ts' ∧ Exec t c) ts) ∧
    (∀ ts : List (Tok ω), enough ts.length ≤ fuel + 3 →
      Wp IsPanic (parseblock toks fuel) (fun c ts' => ∃ t, ts = t ++ ts' ∧ Exec t c) ts) := by
  induction fuel with
  | zero =>
    refine ⟨fun ts h => ?_, fun ts h => ?_, fun ts h => ?_, fun ts h => ?_⟩ <;>
      exact absurd h (by rw [enough]; omega)
  | succ fuel ih =>
    obtain ⟨ihline, ihpipe, ihexec, ihblock⟩ := ih
    refine ⟨fun ts h => ?_, fun ts h => ?_, fun ts h => ?_, fun ts h => ?_⟩ <;> rw [enough] at h
    · rw [parseline, wp_bind]
      refine (ihpipe ts (by rw [enough]; omega)).mono fun c ts₁ hp => ?_
      obtain ⟨t, rfl, ht⟩ := hp
      rw [length_append] at h
      rw [wp_bind]
      refine (backLoop_sound (by omega) c).mono fun c' ts₂ hk => ?_
      obtain ⟨k, rfl, rfl⟩ := hk
      rw [wp_bind, wp_peek_toks]
      by_cases hb : begins [semicolon] ts₂ = true
      · obtain ⟨ts₃, rfl⟩ := eq_of_begins (t := .semicolon) rfl (by decide) hb
        rw [if_pos hb]
        simp only [wp_bind, wp_gettoken_toks, tail_cons]
        rw [length_append, length_cons] at h
        refine (ihline ts₃ (by rw [enough]; omega)).mono fun c' ts₄ hl => ?_
        obtain ⟨t', rfl, ht'⟩ := hl
        exact ⟨_, by simp, .seq ht k ht'⟩
      · rw [if_neg hb]
        exact ⟨_, by rw [append_assoc], .plain ht k⟩
    · rw [parsepipe, wp_bind]
      refine (ihexec ts (by rw [enough]; omega)).mono fun c ts₁ hp => ?_
      obtain ⟨t, rfl, ht⟩ := hp
      rw [length_append] at h
      rw [wp_bind, wp_peek_toks]
      by_cases hb : begins [bar] ts₁ = true
      · obtain ⟨ts₂, rfl⟩ := eq_of_begins (t := .bar) rfl (by decide) hb
        rw [if_pos hb]
        simp only [wp_bind, wp_gettoken_toks, tail_cons]
        rw [length_cons] at h
        refine (ihpipe ts₂ (by rw [enough]; omega)).mono fun c' ts₃ hl => ?_
        obtain ⟨t', rfl, ht'⟩ := hl
        exact ⟨_, by simp, .more ht ht'⟩
      · rw [if_neg hb]
        exact ⟨t, rfl, .one ht⟩
    · rw [parseexec, wp_bind, wp_peek_toks]
      by_cases hb : begins [lparen] ts = true
      · rw [if_pos hb]
        exact ihblock ts (by rw [enough]; omega)
      · rw [if_neg hb, wp_bind]
        refine (parseredirs_sound (by omega) _).mono fun c ts₁ hr => ?_
        obtain ⟨r, rs, rfl, hr, rfl⟩ := hr
        rw [length_append] at h
        have hnil : ([] : List ω).length < maxArgs := by simp [maxArgs]
        refine (argsLoop_sound (by omega) rs hnil).mono fun c ts₂ ha => ?_
        obtain ⟨t, ws, rs', rfl, ht, hws, rfl⟩ := ha
        exact ⟨r ++ t, by rw [append_assoc], .simple hr ht hws⟩
    · rw [parseblock, wp_bind, wp_peek_toks]
      by_cases hb : begins [lparen] ts = true
      · obtain ⟨ts₁, rfl⟩ := eq_of_begins (t := .lparen) rfl (by decide) hb
        rw [if_pos hb]
        simp only [wp_bind, wp_gettoken_toks, tail_cons]
        rw [length_cons] at h
        refine (ihline ts₁ (by rw [enough]; omega)).mono fun c ts₂ hl => ?_
        obtain ⟨t, rfl, ht⟩ := hl
        rw [wp_peek_toks]
        by_cases hb : begins [rparen] ts₂ = true
        · obtain ⟨ts₃, rfl⟩ := eq_of_begins (t := .rparen) rfl (by decide) hb
          rw [if_pos hb]
          simp only [wp_bind, wp_gettoken_toks, tail_cons]
          rw [length_append, length_cons] at h
          refine (parseredirs_sound (by omega) c).mono fun c' ts₄ hr => ?_
          obtain ⟨r, rs, rfl, hr, rfl⟩ := hr
          exact ⟨_, by simp, .block ht hr⟩
        · rw [if_neg hb]
          exact ⟨_, rfl⟩
      · rw [if_neg hb]
        exact ⟨_, rfl⟩

/-! ### Completeness -/

/-- A computation returns this result and leaves these tokens. -/
abbrev Returns {α : Type} (m : StateT (List (Tok ω)) (Except Stop) α) (ts : List (Tok ω)) (a : α)
    (rest : List (Tok ω)) : Prop :=
  Wp (fun _ => False) m (fun a' ts' => a' = a ∧ ts' = rest) ts

/-- Nothing follows, or a token that begins with one of these characters. -/
def Follows (cs : List Byte) (ts : List (Tok ω)) : Prop := ts = [] ∨ begins cs ts = true

theorem Follows.begins_eq (h : Follows cs ts) (cs' : List Byte) (hcs : ∀ c ∈ cs, c ∉ cs') :
    begins cs' ts = false := by
  obtain rfl | h := h
  · rfl
  · obtain ⟨t, ts', c, rfl, hc, hmem⟩ := begins_iff.mp h
    simp [begins, hc, oneOf, hcs c hmem]

theorem Follows.mono {cs' : List Byte} (h : Follows cs ts) (hcs : cs ⊆ cs') : Follows cs' ts := by
  refine h.imp_right fun h => ?_
  obtain ⟨t, ts', c, rfl, hc, hmem⟩ := begins_iff.mp h
  exact begins_iff.mpr ⟨t, ts', c, rfl, hc, hcs hmem⟩

theorem Follows.replicate (h : Follows cs ts) (hcs : ampersand ∈ cs) (k : ℕ) :
    Follows cs (replicate k .ampersand ++ ts) := by
  cases k with
  | zero => exact h
  | succ k => exact .inr (decide_eq_true hcs)

variable {r : List (Tok ω)} {rs : List (ω × Dir)}

theorem Redirs.begins_eq (h : Redirs r rs) (hcs : less ∉ cs ∧ greater ∉ cs)
    (hrest : begins cs rest = false) : begins cs (r ++ rest) = false := by
  cases h with
  | nil => exact hrest
  | @cons t d w ts rs ht h =>
    cases t <;> simp only [Tok.dir, reduceCtorEq] at ht
    · exact decide_eq_false hcs.1
    · exact decide_eq_false hcs.2
    · exact decide_eq_false hcs.2

variable {t : List (Tok ω)} {ws : List ω}

theorem Args.begins_eq (h : Args t ws rs) (hrest : begins cs rest = false) :
    begins cs (t ++ rest) = false := by
  cases h with
  | nil => exact hrest
  | word w hr h => rfl

theorem parseredirs_complete (h : Redirs r rs) (hrest : begins [less, greater] rest = false)
    (hfuel : r.length + rest.length < fuel) (c : Cmd ω) :
    Returns (parseredirs toks fuel c) (r ++ rest) (wrap c rs) rest := by
  induction fuel generalizing r rs c with
  | zero => exact absurd hfuel (Nat.not_lt_zero _)
  | succ fuel ih =>
    rw [Returns, parseredirs, wp_bind, wp_peek_toks]
    cases h with
    | nil =>
      rw [nil_append, hrest]
      exact ⟨rfl, rfl⟩
    | @cons t d w ts rs ht h =>
      have hb : begins [less, greater] (t :: .word w :: ts ++ rest) = true := by
        cases t <;> simp [Tok.dir] at ht <;> simp [begins, Tok.char, oneOf]
      rw [length_cons, length_cons] at hfuel
      have hloop := fun c' : Cmd ω => ih h (by omega) c'
      rw [if_pos hb]
      simp only [wp_bind, wp_gettoken_toks, cons_append, head?_cons, tail_cons]
      cases t <;> simp [Tok.dir] at ht <;> subst ht <;> exact hloop _

theorem argsLoop_complete (h : Args t ws rs)
    (hrest : Follows [bar, rparen, ampersand, semicolon] rest)
    (hfuel : t.length + rest.length < fuel) {argv : List ω} (rs₀ : List (ω × Dir))
    (hlen : argv.length + ws.length < maxArgs) :
    Returns (argsLoop toks fuel argv.length (wrap (.exec argv) rs₀)) (t ++ rest)
      (wrap (.exec (argv ++ ws)) (rs₀ ++ rs)) rest := by
  induction fuel generalizing t ws rs argv rs₀ with
  | zero => exact absurd hfuel (Nat.not_lt_zero _)
  | succ fuel ih =>
    rw [Returns, argsLoop, wp_bind, wp_peek_toks]
    cases h with
    | nil =>
      rw [nil_append, append_nil, append_nil]
      obtain rfl | hb := hrest
      · exact ⟨rfl, rfl⟩
      · rw [if_pos hb]
        exact ⟨rfl, rfl⟩
    | @word w r ts ws rs rs' hr h =>
      rw [length_cons, length_append] at hfuel
      rw [length_cons] at hlen
      have hmax : ¬ maxArgs ≤ argv.length + 1 := by omega
      have hb := h.begins_eq (hrest.begins_eq [less, greater] (by decide))
      rw [if_neg (by exact Bool.false_ne_true), wp_bind, wp_gettoken_toks]
      simp only [cons_append, head?_cons, tail_cons]
      rw [if_neg hmax, wp_bind, wrap_addArg, append_assoc]
      refine (parseredirs_complete hr hb (by rw [length_append]; omega) _).mono
        fun c ts' hc => ?_
      obtain ⟨rfl, rfl⟩ := hc
      have hargv : argv.length + 1 = (argv ++ [w]).length := by simp
      rw [wrap_append, hargv]
      have hlen' : (argv ++ [w]).length + ws.length < maxArgs := by omega
      have hloop := ih h (by omega) (rs₀ ++ rs) hlen'
      rwa [append_assoc, append_assoc, singleton_append] at hloop

theorem backLoop_complete (k : ℕ) (hrest : begins [ampersand] rest = false)
    (hfuel : k + rest.length < fuel) (c : Cmd ω) :
    Returns (backLoop toks fuel c) (replicate k .ampersand ++ rest) (Cmd.back^[k] c) rest := by
  induction fuel generalizing k c with
  | zero => exact absurd hfuel (Nat.not_lt_zero _)
  | succ fuel ih =>
    rw [Returns, backLoop, wp_bind, wp_peek_toks]
    cases k with
    | zero =>
      rw [replicate_zero, nil_append, hrest]
      exact ⟨rfl, rfl⟩
    | succ k =>
      rw [replicate_succ, cons_append, if_pos (by rfl)]
      simp only [wp_bind, wp_gettoken_toks, tail_cons]
      exact ih k (by omega) _

/-- The parser consumes every sentence of the grammar that is followed by a token at which it
stops, and returns the command of its derivation. -/
theorem parser_complete (fuel : ℕ) :
    (∀ (t rest : List (Tok ω)) (c : Cmd ω), Line t c → Follows [rparen] rest →
      enough (t ++ rest).length ≤ fuel → Returns (parseline toks fuel) (t ++ rest) c rest) ∧
    (∀ (t rest : List (Tok ω)) (c : Cmd ω), Pipe t c → Follows [rparen, ampersand, semicolon] rest →
      enough (t ++ rest).length ≤ fuel + 1 → Returns (parsepipe toks fuel) (t ++ rest) c rest) ∧
    (∀ (t rest : List (Tok ω)) (c : Cmd ω), Exec t c →
      Follows [bar, rparen, ampersand, semicolon] rest →
      enough (t ++ rest).length ≤ fuel + 2 → Returns (parseexec toks fuel) (t ++ rest) c rest) ∧
    (∀ (t r rest : List (Tok ω)) (c : Cmd ω) (rs : List (ω × Dir)), Line t c → Redirs r rs →
      Follows [bar, rparen, ampersand, semicolon] rest →
      enough (.lparen :: (t ++ .rparen :: (r ++ rest))).length ≤ fuel + 3 →
      Returns (parseblock toks fuel) (.lparen :: (t ++ .rparen :: (r ++ rest))) (wrap c rs)
        rest) := by
  induction fuel with
  | zero =>
    refine ⟨fun t rest c _ _ h => ?_, fun t rest c _ _ h => ?_, fun t rest c _ _ h => ?_,
      fun t r rest c rs _ _ _ h => ?_⟩ <;> exact absurd h (by rw [enough]; omega)
  | succ fuel ih =>
    obtain ⟨ihline, ihpipe, ihexec, ihblock⟩ := ih
    refine ⟨fun t rest c hl hrest h => ?_, fun t rest c hp hrest h => ?_,
      fun t rest c he hrest h => ?_, fun t r rest c rs hl hr hrest h => ?_⟩ <;> rw [enough] at h
    · rw [Returns, parseline, wp_bind]
      -- the tokens behind the pipeline begin with `&`, with `;` or as the rest does
      have hline : ∀ (t ts : List (Tok ω)) (c : Cmd ω) (k : ℕ), Pipe t c →
          Follows [rparen, semicolon] ts →
          5 * (t ++ (replicate k Tok.ampersand ++ ts)).length + 5 ≤ fuel + 1 →
          Wp (fun _ => False) (parsepipe toks fuel) (fun c' ts' =>
            Returns (backLoop toks fuel c') ts' (Cmd.back^[k] c) ts)
            (t ++ (replicate k Tok.ampersand ++ ts)) := by
        intro t ts c k hp hts h
        have hpipe : Follows [rparen, ampersand, semicolon] ts := hts.mono (by decide)
        refine (ihpipe t _ c hp (hpipe.replicate (by decide) k) (by rw [enough]; omega)).mono
          fun c' ts' hc => ?_
        obtain ⟨rfl, rfl⟩ := hc
        refine backLoop_complete k (hts.begins_eq _ (by decide)) ?_ _
        rw [length_append, length_append, length_replicate] at h
        omega
      cases hl with
      | @plain t c hp k =>
        rw [append_assoc] at h ⊢
        refine (hline t rest c k hp (hrest.mono (by decide)) h).mono fun c₁ ts₁ hback => ?_
        rw [wp_bind]
        refine Wp.mono hback fun c₂ ts₂ hc => ?_
        obtain ⟨rfl, rfl⟩ := hc
        rw [wp_bind, wp_peek_toks, hrest.begins_eq _ (by decide)]
        exact ⟨rfl, rfl⟩
      | @seq t t' c c' hp k hl =>
        rw [append_assoc, append_assoc, cons_append] at h ⊢
        refine (hline t _ c k hp (.inr rfl) h).mono fun c₁ ts₁ hback => ?_
        rw [wp_bind]
        refine Wp.mono hback fun c₂ ts₂ hc => ?_
        obtain ⟨rfl, rfl⟩ := hc
        rw [wp_bind, wp_peek_toks, if_pos (by rfl)]
        simp only [wp_bind, wp_gettoken_toks, tail_cons]
        rw [length_append, length_append, length_cons] at h
        refine (ihline t' rest c' hl hrest (by rw [enough]; omega)).mono fun c₃ ts₃ hc => ?_
        obtain ⟨rfl, rfl⟩ := hc
        exact ⟨rfl, rfl⟩
    · rw [Returns, parsepipe, wp_bind]
      cases hp with
      | one he =>
        refine (ihexec t rest c he (hrest.mono (by decide)) (by rw [enough]; omega)).mono
          fun c' ts' hc => ?_
        obtain ⟨rfl, rfl⟩ := hc
        rw [wp_bind, wp_peek_toks, hrest.begins_eq _ (by decide)]
        exact ⟨rfl, rfl⟩
      | @more t t' c c' he hp =>
        rw [append_assoc, cons_append] at h ⊢
        refine (ihexec t _ c he (.inr rfl) (by rw [enough]; omega)).mono fun c₁ ts' hc => ?_
        obtain ⟨rfl, rfl⟩ := hc
        rw [length_append, length_cons] at h
        rw [wp_bind, wp_peek_toks, if_pos (by rfl)]
        simp only [wp_bind, wp_gettoken_toks, tail_cons]
        refine (ihpipe t' rest c' hp hrest (by rw [enough]; omega)).mono fun c₂ ts' hc => ?_
        obtain ⟨rfl, rfl⟩ := hc
        exact ⟨rfl, rfl⟩
    · rw [Returns, parseexec, wp_bind, wp_peek_toks]
      cases he with
      | @block t r c rs hl hr =>
        rw [cons_append, append_assoc, cons_append] at h ⊢
        rw [if_pos (by rfl)]
        exact ihblock t r rest c rs hl hr hrest (by rw [enough]; omega)
      | @simple r t ws rs rs' hr ha hlen =>
        rw [append_assoc] at h ⊢
        have hargs := fun (cs : List Byte) hcs => ha.begins_eq (hrest.begins_eq cs hcs)
        rw [hr.begins_eq (by decide) (hargs _ (by decide)), if_neg (by exact Bool.false_ne_true),
          wp_bind]
        rw [length_append] at h
        refine (parseredirs_complete hr (hargs _ (by decide)) (by omega) _).mono fun c ts' hc => ?_
        obtain ⟨rfl, rfl⟩ := hc
        rw [length_append] at h
        have hzero : ([] : List ω).length + ws.length < maxArgs := by
          rwa [length_nil, zero_add]
        exact argsLoop_complete ha hrest (by omega) rs hzero
    · rw [Returns, parseblock, wp_bind, wp_peek_toks, if_pos (by rfl)]
      simp only [wp_bind, wp_gettoken_toks, tail_cons]
      rw [length_cons] at h
      refine (ihline t _ c hl (.inr rfl) (by rw [enough]; omega)).mono fun c₁ ts' hc => ?_
      obtain ⟨rfl, rfl⟩ := hc
      rw [wp_peek_toks, if_pos (by rfl)]
      simp only [wp_bind, wp_gettoken_toks, tail_cons]
      rw [length_append, length_cons, length_append] at h
      exact parseredirs_complete hr (hrest.begins_eq _ (by decide)) (by omega) _

end Dave.Shell
