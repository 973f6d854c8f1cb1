import Dave.Fs.Dir

/-!
# The parser of the shell

The shell parses a line by recursive descent. Four functions share a cursor into the line, and see
the line only through `gettoken`, which takes the next token, and `peek`, which looks at the next
character. The functions are written here for any such pair, so that they can be run on the bytes of
a line and on a list of tokens.
-/

namespace Dave.Shell

open Fs (Str)

/-! ### Characters -/

/-- The characters of `whitespace`: space, tab, carriage return, newline and vertical tab. -/
def whitespace : List Byte := [32, 9, 13, 10, 11]

/-- The characters `<`, `|`, `>`, `&`, `;`, `(` and `)`. -/
abbrev less : Byte := 60

@[inherit_doc less] abbrev bar : Byte := 124

@[inherit_doc less] abbrev greater : Byte := 62

@[inherit_doc less] abbrev ampersand : Byte := 38

@[inherit_doc less] abbrev semicolon : Byte := 59

@[inherit_doc less] abbrev lparen : Byte := 40

@[inherit_doc less] abbrev rparen : Byte := 41

def symbols : List Byte := [less, bar, greater, ampersand, semicolon, lparen, rparen]

/-- Whether a character is one of these. -/
def oneOf (cs : List Byte) (c : Byte) : Bool := c ∈ cs

/-- Whether a character is in `whitespace`. -/
def isBlank (c : Byte) : Bool := c ∈ whitespace

/-- Whether a word goes on with a character. -/
def isWord (c : Byte) : Bool := c ∉ whitespace ∧ c ∉ symbols

/-! ### Tokens and trees -/

/-- The tokens that `gettoken` returns, other than the end of the line. Words are given by `ω`. -/
inductive Tok (ω : Type) where
  | bar | lparen | rparen | semicolon | ampersand | less | greater
  /-- `>>` -/
  | append
  | word (w : ω)
deriving DecidableEq

/-- Where a redirection goes: `O_RDONLY` and descriptor 0, or `O_WRONLY|O_CREATE` and descriptor 1.
-/
inductive Dir where
  | input
  | output
deriving DecidableEq

/-- The trees that the parser makes. -/
inductive Cmd (ω : Type) where
  | exec (argv : List ω)
  | redir (cmd : Cmd ω) (file : ω) (dir : Dir)
  | pipe (left right : Cmd ω)
  | list (left right : Cmd ω)
  | back (cmd : Cmd ω)
deriving DecidableEq

inductive Panic where
  /-- `missing file for redirection` -/
  | missingFile
  /-- `parseblock` -/
  | parseblock
  /-- `syntax - missing )` -/
  | missingParen
  /-- `syntax`, in `parseexec` -/
  | badToken
  /-- `too many args` -/
  | tooManyArgs
  /-- `syntax`, in `parsecmd` -/
  | leftovers
deriving DecidableEq

/-- How the parser ends, if it does not return a tree. -/
inductive Stop where
  | panic (p : Panic)
  /-- a character behind the end of the line is read -/
  | pastEnd
  /-- the recursion has not ended after the given number of calls -/
  | fuel
deriving DecidableEq

variable {σ ω : Type}

/-- What the parser reads from. -/
structure Source (σ ω : Type) where
  peek : List Byte → StateT σ (Except Stop) Bool
  gettoken : StateT σ (Except Stop) (Option (Tok ω))

/-! ### The parser -/

abbrev maxArgs : ℕ := 10

/-- Another argument for the command inside the redirections. -/
def Cmd.addArg (w : ω) : Cmd ω → Cmd ω
  | .exec argv => .exec (argv ++ [w])
  | .redir cmd file dir => .redir (cmd.addArg w) file dir
  | cmd => cmd

section Parser

variable (S : Source σ ω)

def parseredirs : ℕ → Cmd ω → StateT σ (Except Stop) (Cmd ω)
  | 0, _ => throw .fuel
  | fuel + 1, cmd => do
    if ← S.peek [less, greater] then
      let tok ← S.gettoken
      match ← S.gettoken with
      | some (.word w) =>
        match tok with
        | some .less => parseredirs fuel (.redir cmd w .input)
        | some .greater => parseredirs fuel (.redir cmd w .output)
        | some .append => parseredirs fuel (.redir cmd w .output)
        | _ => parseredirs fuel cmd
      | _ => throw (.panic .missingFile)
    else return cmd

/-- The loop of `parseexec`, after `argc` arguments. -/
def argsLoop : ℕ → ℕ → Cmd ω → StateT σ (Except Stop) (Cmd ω)
  | 0, _, _ => throw .fuel
  | fuel + 1, argc, ret => do
    if ← S.peek [bar, rparen, ampersand, semicolon] then return ret
    else
      match ← S.gettoken with
      | none => return ret
      | some (.word w) =>
        if maxArgs ≤ argc + 1 then throw (.panic .tooManyArgs)
        else argsLoop fuel (argc + 1) (← parseredirs S fuel (ret.addArg w))
      | _ => throw (.panic .badToken)

/-- The loop of `parseline` over `&`. -/
def backLoop : ℕ → Cmd ω → StateT σ (Except Stop) (Cmd ω)
  | 0, _ => throw .fuel
  | fuel + 1, cmd => do
    if ← S.peek [ampersand] then
      let _ ← S.gettoken
      backLoop fuel (.back cmd)
    else return cmd

mutual

def parseline : ℕ → StateT σ (Except Stop) (Cmd ω)
  | 0 => throw .fuel
  | fuel + 1 => do
    let cmd ← parsepipe fuel
    let cmd ← backLoop S fuel cmd
    if ← S.peek [semicolon] then
      let _ ← S.gettoken
      return .list cmd (← parseline fuel)
    else return cmd

def parsepipe : ℕ → StateT σ (Except Stop) (Cmd ω)
  | 0 => throw .fuel
  | fuel + 1 => do
    let cmd ← parseexec fuel
    if ← S.peek [bar] then
      let _ ← S.gettoken
      return .pipe cmd (← parsepipe fuel)
    else return cmd

def parseexec : ℕ → StateT σ (Except Stop) (Cmd ω)
  | 0 => throw .fuel
  | fuel + 1 => do
    if ← S.peek [lparen] then parseblock fuel
    else
      let ret ← parseredirs S fuel (.exec [])
      argsLoop S fuel 0 ret

def parseblock : ℕ → StateT σ (Except Stop) (Cmd ω)
  | 0 => throw .fuel
  | fuel + 1 => do
    if ← S.peek [lparen] then
      let _ ← S.gettoken
      let cmd ← parseline fuel
      if ← S.peek [rparen] then
        let _ ← S.gettoken
        parseredirs S fuel cmd
      else throw (.panic .missingParen)
    else throw (.panic .parseblock)

end

end Parser

/-! ### The bytes of a line -/

/-- The character at a place of the line. There is a NUL behind the last one. -/
def charAt (b : Str) (s : ℕ) : Except Stop Byte :=
  match b[s]? with
  | some c => .ok c
  | none => if s = b.length then .ok 0 else .error .pastEnd

/-- `while(s < es && p(*s)) s++;` It makes at most as many rounds as there are characters. -/
def scan (b : Str) (p : Byte → Bool) : ℕ → ℕ → Except Stop ℕ
  | 0, s => .ok s
  | fuel + 1, s => do
    if s < b.length then
      if p (← charAt b s) then scan b p fuel (s + 1) else return s
    else return s

/-- The `switch` of `gettoken`, at the character at `s`: the token, with the places of a word, and
the place behind it. -/
def tokenAt (b : Str) (s : ℕ) : Except Stop (Option (Tok (ℕ × ℕ)) × ℕ) := do
  let c ← charAt b s
  if c = 0 then return (none, s)
  else if c = bar then return (some .bar, s + 1)
  else if c = lparen then return (some .lparen, s + 1)
  else if c = rparen then return (some .rparen, s + 1)
  else if c = semicolon then return (some .semicolon, s + 1)
  else if c = ampersand then return (some .ampersand, s + 1)
  else if c = less then return (some .less, s + 1)
  else if c = greater then do
    if (← charAt b (s + 1)) = greater then return (some .append, s + 2)
    else return (some .greater, s + 1)
  else do
    let e ← scan b isWord b.length s
    return (some (.word (s, e)), e)

/-- `gettoken`, where `ps` is the state. -/
def gettoken (b : Str) : StateT ℕ (Except Stop) (Option (Tok (ℕ × ℕ))) := fun s => do
  let q ← scan b isBlank b.length s
  let (tok, e) ← tokenAt b q
  return (tok, ← scan b isBlank b.length e)

def peek (b : Str) (toks : List Byte) : StateT ℕ (Except Stop) Bool := fun s => do
  let s ← scan b isBlank b.length s
  let c ← charAt b s
  return (decide (c ≠ 0 ∧ c ∈ toks), s)

/-- The bytes of a line as a source. Words are given by the places where they begin and end. -/
def line (b : Str) : Source ℕ (ℕ × ℕ) := ⟨peek b, gettoken b⟩

/-! ### `parsecmd` -/

/-- The places where `nulterminate` writes a NUL. -/
def Cmd.ends : Cmd (ℕ × ℕ) → List ℕ
  | .exec argv => argv.map Prod.snd
  | .redir cmd file _ => cmd.ends ++ [file.2]
  | .pipe left right => left.ends ++ right.ends
  | .list left right => left.ends ++ right.ends
  | .back cmd => cmd.ends

/-- `nulterminate`: the bytes afterwards, with the NUL behind the line. -/
def nulterminate (b : Str) (cmd : Cmd (ℕ × ℕ)) : List Byte :=
  cmd.ends.foldl (fun b e => b.set e 0) (b ++ [0])

/-- The string at a place. -/
def stringAt (b : List Byte) (s : ℕ) : Str := (b.drop s).takeWhile (· ≠ 0)

/-- The words of a tree, replaced. -/
def Cmd.map {ω ω' : Type} (f : ω → ω') : Cmd ω → Cmd ω'
  | .exec argv => .exec (argv.map f)
  | .redir cmd file dir => .redir (cmd.map f) (f file) dir
  | .pipe left right => .pipe (left.map f) (right.map f)
  | .list left right => .list (left.map f) (right.map f)
  | .back cmd => .back (cmd.map f)

/-- A number of calls that is enough. -/
def enough (n : ℕ) : ℕ := 5 * n + 5

/-- `parsecmd`, of a line without its NUL: the tree, with the strings that its pointers point to. -/
def parsecmd (b : Str) : Except Stop (Cmd Str) := do
  let (cmd, s) ← parseline (line b) (enough b.length) 0
  let (_, s) ← peek b [] s
  if s ≠ b.length then .error (.panic .leftovers)
  else return cmd.map fun w => stringAt (nulterminate b cmd) w.1

end Dave.Shell
