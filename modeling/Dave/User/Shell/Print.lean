import Dave.User.Shell.Tokens

/-!
# What the shell accepts

`parsecmd` returns the tree of a line that is derived from the grammar, and ends in `panic` for
every other line. A tree that is written with all its parentheses is read back as it was.
-/

namespace Dave.Shell

open List

open Fs (Str)

variable {ω : Type}

/-! ### Lines that are derived -/

variable {ts : List (Tok Str)}

theorem accept_eq_iff {fuel : ℕ} (hfuel : enough ts.length ≤ fuel) (c : Cmd Str) :
    accept fuel ts = .ok c ↔ Line ts c := by
  constructor
  · intro h
    rw [accept] at h
    cases hp : parseline toks fuel ts with
    | error e =>
      rw [hp] at h
      cases h
    | ok r =>
      obtain ⟨c', ts'⟩ := r
      obtain ⟨t, rfl, ht⟩ := ((parser_sound fuel).1 ts hfuel).of_ok hp
      rw [hp] at h
      simp only [bind, Except.bind, pure, Except.pure] at h
      split_ifs at h with hts
      cases h
      rwa [not_not.mp hts, append_nil]
  · intro h
    have hp := (parser_complete fuel).1 ts [] c h (.inl rfl) (by rwa [append_nil])
    rw [append_nil] at hp
    obtain ⟨c', ts', heq, rfl, rfl⟩ := hp.exists_ok
    rw [accept, heq]
    rfl

theorem accept_eq_error {fuel : ℕ} (hfuel : enough ts.length ≤ fuel) {e : Stop}
    (h : accept fuel ts = .error e) : IsPanic e := by
  rw [accept] at h
  cases hp : parseline toks fuel ts with
  | error e' =>
    have he := ((parser_sound fuel).1 ts hfuel).of_error hp
    rw [hp] at h
    cases h
    exact he
  | ok r =>
    rw [hp] at h
    simp only [bind, Except.bind, pure, Except.pure] at h
    split_ifs at h
    cases h
    exact ⟨_, rfl⟩

/-! ### Printing -/

/-- A tree in parentheses. -/
def parens (s : Str) : Str := lparen :: (s ++ [rparen])

/-- The character of a redirection. -/
def Dir.char : Dir → Byte
  | .input => less
  | .output => greater

/-- The token of a redirection. -/
def Dir.tok : Dir → Tok ω
  | .input => .less
  | .output => .greater

theorem Dir.dir_tok (d : Dir) : (d.tok : Tok ω).dir = some d := by
  cases d <;> rfl

/-- A word: not empty, and free of blanks, of symbols and of NUL. -/
def IsName (w : Str) : Prop := w ≠ [] ∧ ∀ c ∈ w, c ≠ 0 ∧ isWord c = true

/-- A tree, written with all its parentheses. -/
def Cmd.print : Cmd Str → Str
  | .exec argv => argv.flatMap (· ++ [32])
  | .redir cmd file dir => parens cmd.print ++ dir.char :: file
  | .pipe left right => parens left.print ++ bar :: parens right.print
  | .list left right => parens left.print ++ semicolon :: parens right.print
  | .back cmd => parens cmd.print ++ [ampersand]

/-- The words can be read, and there are few enough of them. -/
def Cmd.Good : Cmd Str → Prop
  | .exec argv => (∀ w ∈ argv, IsName w) ∧ argv.length < maxArgs
  | .redir cmd file _ => cmd.Good ∧ IsName file
  | .pipe left right => left.Good ∧ right.Good
  | .list left right => left.Good ∧ right.Good
  | .back cmd => cmd.Good

/-- The tokens of a tree that is written. -/
def Cmd.printed : Cmd ω → List (Tok ω)
  | .exec argv => argv.map .word
  | .redir cmd file dir => .lparen :: (cmd.printed ++ .rparen :: dir.tok :: [.word file])
  | .pipe left right =>
    .lparen :: (left.printed ++ .rparen :: .bar :: .lparen :: (right.printed ++ [.rparen]))
  | .list left right =>
    .lparen :: (left.printed ++ .rparen :: .semicolon :: .lparen :: (right.printed ++ [.rparen]))
  | .back cmd => .lparen :: (cmd.printed ++ [.rparen, .ampersand])

theorem args_words (ws : List ω) : Args (ws.map .word) ws [] := by
  induction ws with
  | nil => exact .nil
  | cons w ws ih => exact .word w .nil ih

variable {c : Cmd Str}

theorem line_printed (h : c.Good) : Line c.printed c := by
  induction c with
  | exec argv =>
    have hexec : Exec (argv.map .word) (.exec argv) := .simple .nil (args_words argv) h.2
    have hline := Line.plain (.one hexec) 0
    rwa [replicate_zero, append_nil] at hline
  | redir c file dir ih =>
    have hr : Redirs [dir.tok, .word file] [(file, dir)] := .cons dir.dir_tok .nil
    have hline := Line.plain (.one (.block (ih h.1) hr)) 0
    rwa [replicate_zero, append_nil] at hline
  | pipe left right ihl ihr =>
    have hpipe := Pipe.more (.block (ihl h.1) .nil) (.one (.block (ihr h.2) .nil))
    have hline := Line.plain hpipe 0
    rw [replicate_zero, append_nil, cons_append, append_assoc] at hline
    exact hline
  | list left right ihl ihr =>
    have hright := Line.plain (.one (.block (ihr h.2) .nil)) 0
    rw [replicate_zero, append_nil] at hright
    have hline := Line.seq (.one (.block (ihl h.1) .nil)) 0 hright
    rw [cons_append, append_assoc] at hline
    exact hline
  | back c ih =>
    have hline := Line.plain (.one (.block (ih h) .nil)) 1
    rw [cons_append, append_assoc] at hline
    exact hline

/-! ### The tokens of what is printed -/

theorem tokens_name {w s : Str} (hw : IsName w) (hs : s.head?.all fun c => !isWord c) :
    tokens (w ++ s) = .word w :: tokens s := by
  obtain ⟨hne, hw⟩ := hw
  cases w with
  | nil => exact absurd rfl hne
  | cons c w =>
    have hword : ∀ c' ∈ w, isWord c' = true := fun c' hc' => (hw c' (.tail _ hc')).2
    have hstop : s.takeWhile isWord = [] ∧ s.dropWhile isWord = s := by
      cases s with
      | nil => exact ⟨rfl, rfl⟩
      | cons c s =>
        have hc : isWord c = false := by simpa using hs
        rw [takeWhile_cons, dropWhile_cons, hc]
        exact ⟨rfl, rfl⟩
    rw [cons_append, tokens_word (hw c mem_cons_self).2,
      takeWhile_append_of_pos hword, dropWhile_append_of_pos hword, hstop.1, hstop.2,
      append_nil]

theorem tokens_names {ws : List Str} (h : ∀ w ∈ ws, IsName w) (s : Str) :
    tokens (ws.flatMap (· ++ [32]) ++ s) = ws.map .word ++ tokens s := by
  induction ws with
  | nil => rfl
  | cons w ws ih =>
    obtain ⟨hw, hws⟩ := forall_mem_cons.mp h
    rw [flatMap_cons, append_assoc, append_assoc, tokens_name hw rfl,
      singleton_append, tokens_blank rfl, ih hws]
    rfl

theorem tokens_parens {p s : Str}
    (h : ∀ s : Str, (s.head?.all fun c => !isWord c) = true → tokens (p ++ s) = ts ++ tokens s) :
    tokens (parens p ++ s) = .lparen :: (ts ++ .rparen :: tokens s) := by
  rw [parens, cons_append, append_assoc, singleton_append,
    tokens_char (t := .lparen) rfl (by simp), h _ rfl, tokens_char (t := .rparen) rfl (by simp)]

theorem tokens_dir {w : Str} (hw : IsName w) (d : Dir) (s : Str) :
    tokens (d.char :: (w ++ s)) = d.tok :: tokens (w ++ s) := by
  -- the word does not begin with `>`, so that a `>` before it is not a `>>`
  have hhead : (w ++ s).head? ≠ some greater := by
    obtain ⟨hne, hw⟩ := hw
    cases w with
    | nil => exact absurd rfl hne
    | cons c w =>
      intro h
      have hc := (hw c mem_cons_self).2
      rw [Option.some.inj h] at hc
      exact absurd hc (by decide)
  cases d with
  | input | output => exact tokens_char rfl fun h => hhead h.2

theorem tokens_print (h : c.Good) (s : Str) (hs : (s.head?.all fun c => !isWord c) = true) :
    tokens (c.print ++ s) = c.printed ++ tokens s := by
  induction c generalizing s with
  | exec argv => exact tokens_names h.1 s
  | redir c file dir ih =>
    rw [Cmd.print, append_assoc, cons_append, tokens_parens (ih h.1), tokens_dir h.2,
      tokens_name h.2 hs, Cmd.printed]
    simp
  | pipe left right ihl ihr =>
    rw [Cmd.print, append_assoc, cons_append, tokens_parens (ihl h.1),
      tokens_char (t := .bar) rfl (by simp), tokens_parens (ihr h.2), Cmd.printed]
    simp
  | list left right ihl ihr =>
    rw [Cmd.print, append_assoc, cons_append, tokens_parens (ihl h.1),
      tokens_char (t := .semicolon) rfl (by simp), tokens_parens (ihr h.2), Cmd.printed]
    simp
  | back c ih =>
    rw [Cmd.print, append_assoc, singleton_append, tokens_parens (ih h),
      tokens_char (t := .ampersand) rfl (by simp), Cmd.printed]
    simp

theorem ne_zero_of_mem_parens {p : Str} (h : ∀ x ∈ p, x ≠ 0) : ∀ x ∈ parens p, x ≠ 0 := by
  intro x hx
  rw [parens, mem_cons, mem_append, mem_singleton] at hx
  obtain rfl | hx | rfl := hx
  · decide
  · exact h x hx
  · decide

theorem ne_zero_of_mem_print (h : c.Good) : ∀ x ∈ c.print, x ≠ 0 := by
  have hjoin : ∀ {p s : Str} {y : Byte}, (∀ x ∈ p, x ≠ 0) → y ≠ 0 → (∀ x ∈ s, x ≠ 0) →
      ∀ x ∈ parens p ++ y :: s, x ≠ 0 := by
    intro p s y hp hy hs x hx
    rw [mem_append, mem_cons] at hx
    obtain hx | rfl | hx := hx
    · exact ne_zero_of_mem_parens hp x hx
    · exact hy
    · exact hs x hx
  induction c with
  | exec argv =>
    intro x hx
    obtain ⟨w, hw, hx⟩ := mem_flatMap.mp hx
    rw [mem_append, mem_singleton] at hx
    obtain hx | rfl := hx
    · exact ((h.1 w hw).2 x hx).1
    · decide
  | redir c file dir ih =>
    exact hjoin (ih h.1) (by cases dir <;> decide) fun x hx => (h.2.2 x hx).1
  | pipe left right ihl ihr | list left right ihl ihr =>
    exact hjoin (ihl h.1) (by decide) (ne_zero_of_mem_parens (ihr h.2))
  | back c ih => exact hjoin (ih h) (by decide) fun x hx => absurd hx not_mem_nil

/-- `parsecmd` accepts its grammar. -/
theorem parsecmd_spec (b : Str) (h0 : 0 ∉ b) :
    (∀ c, parsecmd b = .ok c ↔ Line (tokens b) c) ∧
    ((¬ ∃ c, Line (tokens b) c) → ∃ p, parsecmd b = .error (.panic p)) ∧
    (∀ c : Cmd Str, c.Good → parsecmd c.print = .ok c) := by
  have hfuel : ∀ b : Str, enough (tokens b).length ≤ enough b.length := fun b => by
    have := length_tokens_le b
    rw [enough, enough]
    omega
  refine ⟨fun c => ?_, fun h => ?_, fun c hc => ?_⟩
  · rw [parsecmd_eq h0]
    exact accept_eq_iff (hfuel b) c
  · rw [parsecmd_eq h0]
    cases ha : accept (enough b.length) (tokens b) with
    | ok c => exact absurd ⟨c, (accept_eq_iff (hfuel b) c).mp ha⟩ h
    | error e =>
      obtain ⟨p, rfl⟩ := accept_eq_error (hfuel b) ha
      exact ⟨p, rfl⟩
  · have htokens := tokens_print hc [] rfl
    rw [append_nil, tokens_nil, append_nil] at htokens
    rw [parsecmd_eq fun h => ne_zero_of_mem_print hc 0 h rfl]
    refine (accept_eq_iff (hfuel _) c).mpr ?_
    rw [htokens]
    exact line_printed hc

theorem parsecmd_spec_pipe : parsecmd [97, 124, 98] = .ok (.pipe (.exec [[97]]) (.exec [[98]])) ∧
    Line (tokens [97, 124, 98]) (.pipe (.exec [[97]]) (.exec [[98]])) :=
  ⟨rfl, ((parsecmd_spec [97, 124, 98] (by decide)).1 _).mp rfl⟩

end Dave.Shell
