import Dave.User.Ted.Load

/-!
# Structured output

`structio.c` writes records as JSON objects, one on a line. What it writes is read back here by a
reader of such objects: a string may have escapes, and a number has no leading zeros. The strings of
C are given without the NUL behind them.
-/

namespace Dave.Structio

open List

open Fs (Str)

open Ted (zero newline minus decimal decimal_digits isDigit value value_decimal NoDigit)

/-- The characters `"`, `\`, `,`, `:`, `{` and `}`. -/
abbrev quote : Byte := 34

@[inherit_doc quote] abbrev backslash : Byte := 92

@[inherit_doc quote] abbrev comma : Byte := 44

@[inherit_doc quote] abbrev colon : Byte := 58

@[inherit_doc quote] abbrev lbrace : Byte := 123

@[inherit_doc quote] abbrev rbrace : Byte := 125

/-! ### `structio.c` and `printint` -/

/-- The string `hex` of `write_escaped`, and the string `digits` of `printint`. -/
def hex : List Byte := [48, 49, 50, 51, 52, 53, 54, 55, 56, 57, 97, 98, 99, 100, 101, 102]

@[inherit_doc hex]
def digits : List Byte := [48, 49, 50, 51, 52, 53, 54, 55, 56, 57, 65, 66, 67, 68, 69, 70]

/-- What `write_escaped` writes for a character. -/
def escape (c : Byte) : List Byte :=
  if c = quote then [backslash, quote]
  else if c = backslash then [backslash, backslash]
  else if c = 10 then [backslash, 110]
  else if c = 13 then [backslash, 114]
  else if c = 9 then [backslash, 116]
  else if c < 0x20 then
    [backslash, 117, zero, zero, hex.getD ((c.sshiftRight 4) &&& 0xf).toNat 0,
      hex.getD (c &&& 0xf).toNat 0]
  else [c]

def writeEscaped (s : Str) : List Byte := s.flatMap escape

/-- The loop of `printint`, the last digit first; there is room for 16 characters. -/
def printLoop (base : Word) : ℕ → Word → List Byte
  | 0, _ => []
  | room + 1, x =>
    let digit := digits.getD (x % base).toNat 0
    if x / base = 0 then [digit] else digit :: printLoop base room (x / base)

def printint (xx base : Word) (sgn : Bool) : List Byte :=
  let neg := sgn && xx.slt 0
  let buf := printLoop base 16 (if neg then -xx else xx)
  (if neg then buf ++ [minus] else buf).reverse

/-- `struct struct_writer`, with what has been written. -/
structure Writer where
  needComma : Bool
  out : List Byte

namespace Writer

variable (w : Writer)

def write (bs : List Byte) : Writer := { w with out := w.out ++ bs }

def beginField : Writer := if w.needComma then w.write [comma] else { w with needComma := true }

def structBegin : Writer := ⟨false, [lbrace]⟩

def structFieldStr (key value : Option Str) : Writer :=
  ((((w.beginField.write [quote]).write (key.getD [])).write [quote, colon, quote]).write
    (writeEscaped (value.getD []))).write [quote]

def structFieldInt (key : Option Str) (value : Word) : Writer :=
  (((w.beginField.write [quote]).write (key.getD [])).write [quote, colon]).write
    (printint value 10 true)

def structEnd : Writer := w.write [rbrace, newline]

end Writer

/-- A call between `struct_begin` and `struct_end`; a pointer may be null. -/
inductive Call where
  | str (key value : Option Str)
  | int (key : Option Str) (value : Word)

def Call.run (w : Writer) : Call → Writer
  | .str key value => w.structFieldStr key value
  | .int key value => w.structFieldInt key value

/-- What is written for a record. -/
def output (calls : List Call) : List Byte :=
  (calls.foldl Call.run Writer.structBegin).structEnd.out

/-! ### Reading objects -/

inductive Value where
  | str (s : Str)
  | int (n : ℤ)
deriving DecidableEq

def hexVal (c : Byte) : Option ℕ := hex.idxOf? c <|> digits.idxOf? c

/-- The escapes of one character. -/
def unescape : List (Byte × Byte) :=
  [(quote, quote), (backslash, backslash), (47, 47), (98, 8), (102, 12), (110, 10), (114, 13),
    (116, 9)]

/-- Where the reader of a string is: behind a character, behind a backslash, or in the digits of a
code, of which `k + 1` are missing. -/
inductive Mode where
  | plain
  | escaped
  | code (n k : ℕ)

/-- Read a string up to the quote, and return the rest. A code stands for a byte. -/
def readChars : Mode → List Byte → Option (Str × List Byte)
  | _, [] => none
  | .plain, c :: bs =>
    if c = quote then some ([], bs)
    else if c = backslash then readChars .escaped bs
    else if c < 0x20 then none
    else (readChars .plain bs).map (Prod.map (c :: ·) id)
  | .escaped, c :: bs =>
    if c = 117 then readChars (.code 0 3) bs
    else (unescape.lookup c).bind fun c => (readChars .plain bs).map (Prod.map (c :: ·) id)
  | .code n k, c :: bs => (hexVal c).bind fun d =>
    if k = 0 then
      if 16 * n + d < 256 then
        (readChars .plain bs).map (Prod.map (BitVec.ofNat 8 (16 * n + d) :: ·) id)
      else none
    else readChars (.code (16 * n + d) (k - 1)) bs

/-- Read digits, which have no leading zero. -/
def readNat (bs : List Byte) : Option (ℕ × List Byte) :=
  let d := bs.takeWhile isDigit
  if d = [] ∨ d.head? = some zero ∧ d ≠ [zero] then none else some (value d, bs.dropWhile isDigit)

def readValue : List Byte → Option (Value × List Byte)
  | [] => none
  | c :: bs =>
    if c = quote then (readChars .plain bs).map (Prod.map .str id)
    else if c = minus then (readNat bs).map (Prod.map (fun n => .int (-(n : ℕ))) id)
    else (readNat (c :: bs)).map (Prod.map (fun n => .int (n : ℕ)) id)

/-- Read a key and its value. -/
def readField : List Byte → Option ((Str × Value) × List Byte)
  | [] => none
  | c :: bs =>
    if c = quote then (readChars .plain bs).bind fun r =>
      if r.2.head? = some colon then (readValue r.2.tail).map (Prod.map (r.1, ·) id) else none
    else none

/-- Read fields up to the brace. -/
def readFields : ℕ → List Byte → Option (List (Str × Value) × List Byte)
  | 0, _ => none
  | fuel + 1, bs => (readField bs).bind fun r =>
    if r.2.head? = some comma then (readFields fuel r.2.tail).map (Prod.map (r.1 :: ·) id)
    else if r.2.head? = some rbrace then some ([r.1], r.2.tail)
    else none

/-- Read an object, and return the rest. -/
def readObject (bs : List Byte) : Option (List (Str × Value) × List Byte) :=
  if bs.head? = some lbrace then
    if bs.tail.head? = some rbrace then some ([], bs.tail.tail)
    else readFields bs.length bs.tail
  else none

/-! ### What is written -/

/-- The key and the value of a call. -/
def Call.field : Call → Str × Value
  | .str key value => (key.getD [], .str (value.getD []))
  | .int key value => (key.getD [], .int value.toInt)

/-- How a value is written. -/
def Value.bytes : Value → List Byte
  | .str s => quote :: (writeEscaped s ++ [quote])
  | .int n => decimal n

/-- What a call writes behind the comma. -/
def Call.bytes (c : Call) : List Byte := quote :: (c.field.1 ++ quote :: colon :: c.field.2.bytes)

theorem printLoop_eq {room : ℕ} {x : Word} (h : x.toNat < 10 ^ room) (hroom : 0 < room) :
    (printLoop 10 room x).reverse =
      (Nat.toDigits 10 x.toNat).map fun c => BitVec.ofNat 8 c.toNat := by
  induction room generalizing x with
  | zero => exact absurd hroom (lt_irrefl 0)
  | succ room ih =>
    have hdigit {d : ℕ} (hd : d < 10) :
        digits.getD d 0 = BitVec.ofNat 8 (Nat.digitChar d).toNat := by
      have hall : ∀ d : Fin 10, digits.getD d 0 = BitVec.ofNat 8 (Nat.digitChar d).toNat := by
        decide
      exact hall ⟨d, hd⟩
    have hdiv : (x / 10).toNat = x.toNat / 10 := BitVec.toNat_udiv
    have hmod : (x % 10).toNat = x.toNat % 10 := BitVec.toNat_umod
    have hzero : x / 10 = 0 ↔ x.toNat < 10 := by
      rw [← BitVec.toNat_inj, hdiv]
      exact Nat.div_eq_zero_iff.trans (by simp)
    rw [printLoop, Nat.toDigits_eq_if (by omega), hmod]
    simp only [hzero]
    split_ifs with hsmall
    · rw [Nat.mod_eq_of_lt hsmall, hdigit hsmall]
      rfl
    · have hroom' : 0 < room := by
        rcases Nat.eq_zero_or_pos room with rfl | hpos
        · omega
        · exact hpos
      rw [reverse_cons, ih (by rw [hdiv]; rw [pow_succ] at h; omega) hroom', hdiv,
        hdigit (Nat.mod_lt _ (by omega)), map_append, map_singleton]

theorem printint_eq (xx : Word) : printint xx 10 true = decimal xx.toInt := by
  have hneg : xx.slt 0 = decide (xx.toInt < 0) := by simp [BitVec.slt]
  have hx := xx.isLt
  rw [printint, Bool.true_and, hneg, decimal]
  by_cases h : xx.toInt < 0
  · have habs : xx.toInt.natAbs = (-xx).toNat := by
      rw [BitVec.toInt_eq_toNat_cond] at h ⊢
      rw [BitVec.toNat_neg]
      split_ifs at h ⊢ <;> omega
    simp only [h, decide_true, if_true, reverse_append, reverse_singleton]
    rw [printLoop_eq (by omega) (by omega), habs]
  · have habs : xx.toInt.natAbs = xx.toNat := by
      rw [BitVec.toInt_eq_toNat_cond] at h ⊢
      split_ifs at h ⊢ <;> omega
    simp only [h, decide_false, Bool.false_eq_true, if_false, nil_append]
    rw [printLoop_eq (by omega) (by omega), habs]

theorem run_eq (w : Writer) (c : Call) :
    c.run w = ⟨true, w.out ++ (if w.needComma then [comma] else []) ++ c.bytes⟩ := by
  obtain ⟨need, out⟩ := w
  cases c <;> cases need <;>
    simp only [Call.run, Writer.structFieldStr, Writer.structFieldInt, Writer.write,
      Writer.beginField, Call.bytes, Call.field, Value.bytes, printint_eq] <;> simp

theorem foldl_run (cs : List Call) (out : List Byte) :
    cs.foldl Call.run ⟨true, out⟩ = ⟨true, out ++ cs.flatMap fun c => comma :: c.bytes⟩ := by
  induction cs generalizing out with
  | nil => simp
  | cons c cs ih => simp [run_eq, ih]

theorem output_cons (c : Call) (cs : List Call) : output (c :: cs) =
    lbrace :: (c.bytes ++ (cs.flatMap (fun c => comma :: c.bytes) ++ [rbrace])) ++ [newline] := by
  simp [output, Writer.structBegin, run_eq, foldl_run, Writer.structEnd, Writer.write]

/-! ### What is read -/

theorem readChars_escape (c : Byte) (bs : List Byte) :
    readChars .plain (escape c ++ bs) = (readChars .plain bs).map (Prod.map (c :: ·) id) := by
  unfold escape
  split_ifs with h₁ h₂ h₃ h₄ h₅ h₆
  · subst h₁; rfl
  · subst h₂; rfl
  · subst h₃; rfl
  · subst h₄; rfl
  · subst h₅; rfl
  · have hcode : ∀ c : Byte, c < 0x20 →
        hexVal (hex.getD ((c.sshiftRight 4) &&& 0xf).toNat 0) = some (c.toNat / 16) ∧
          hexVal (hex.getD (c &&& 0xf).toNat 0) = some (c.toNat % 16) := by
      decide +kernel
    obtain ⟨hhigh, hlow⟩ := hcode c h₆
    have hval : 16 * (16 * 0 + c.toNat / 16) + c.toNat % 16 = c.toNat := by omega
    have hread (a b : Byte) : readChars .plain ([backslash, 117, zero, zero, a, b] ++ bs) =
        (hexVal a).bind fun d => readChars (.code (16 * 0 + d) 0) (b :: bs) := rfl
    rw [hread, hhigh, Option.bind_some, readChars, hlow, Option.bind_some, if_pos rfl, hval,
      if_pos c.isLt, BitVec.ofNat_toNat, BitVec.setWidth_eq]
  · rw [singleton_append, readChars, if_neg h₁, if_neg h₂, if_neg h₆]

theorem readChars_flatMap (s : Str) (rest : List Byte) :
    readChars .plain (s.flatMap escape ++ quote :: rest) = some (s, rest) := by
  induction s with
  | nil => rfl
  | cons c s ih => rw [flatMap_cons, append_assoc, readChars_escape, ih]; rfl

/-- A key has no quotes, backslashes and control characters. -/
def Plain (key : Str) : Prop := ∀ c ∈ key, c ≠ quote ∧ c ≠ backslash ∧ 0x20 ≤ c

instance (key : Str) : Decidable (Plain key) := inferInstanceAs (Decidable (∀ c ∈ key, _))

theorem Plain.flatMap_escape {key : Str} (h : Plain key) : key.flatMap escape = key := by
  have hraw : ∀ c : Byte, c ≠ quote ∧ c ≠ backslash ∧ 0x20 ≤ c → escape c = [c] := by decide +kernel
  induction key with
  | nil => rfl
  | cons c key ih =>
    rw [flatMap_cons, hraw c (h c mem_cons_self), ih fun x hx => h x (mem_cons_of_mem c hx)]
    rfl

theorem head_decimal {n : ℕ} (hn : n ≠ 0) : (decimal n).head? ≠ some zero := by
  have hnot : ¬ ((n : ℤ) < 0) := by omega
  rw [decimal, if_neg hnot, nil_append, Int.natAbs_natCast]
  induction n using Nat.strongRecOn with
  | ind n ih =>
    rw [Nat.toDigits_eq_if (by omega)]
    split_ifs with hsmall
    · have hall : ∀ d : Fin 10, d ≠ 0 → BitVec.ofNat 8 (Nat.digitChar d).toNat ≠ zero := by decide
      simpa using hall ⟨n, hsmall⟩ (by simpa [Fin.ext_iff] using hn)
    · have hrec := ih (n / 10) (by omega) (by omega) (by omega)
      rw [map_append, head?_append_of_ne_nil]
      · exact hrec
      · simp

variable {rest : List Byte}

theorem readNat_decimal (n : ℕ) (hrest : NoDigit rest) :
    readNat (decimal n ++ rest) = some (n, rest) := by
  obtain ⟨hne, hdigits⟩ := decimal_digits n
  have hstop : rest.takeWhile isDigit = [] ∧ rest.dropWhile isDigit = rest := by
    cases rest with
    | nil => exact ⟨rfl, rfl⟩
    | cons c rest => simp [hrest c rfl]
  have hlead : ¬ (decimal n = [] ∨ (decimal n).head? = some zero ∧ decimal n ≠ [zero]) := by
    rintro (hnil | ⟨hhead, hzero⟩)
    · exact hne hnil
    · rcases eq_or_ne n 0 with rfl | hn
      · exact hzero (by decide)
      · exact head_decimal hn hhead
  simp only [readNat, takeWhile_append_of_pos hdigits, dropWhile_append_of_pos hdigits, hstop.1,
    hstop.2, append_nil]
  rw [if_neg hlead, value_decimal]

theorem decimal_cases (n : ℤ) : ∃ k : ℕ, n = k ∨ n = -k ∧ decimal n = minus :: decimal k := by
  rcases lt_or_ge n 0 with hneg | hpos
  · obtain ⟨k, rfl⟩ := Int.eq_negSucc_of_lt_zero hneg
    refine ⟨k + 1, .inr ⟨rfl, ?_⟩⟩
    rw [decimal, decimal, if_pos hneg, if_neg (by omega)]
    rfl
  · exact ⟨n.toNat, .inl (Int.toNat_of_nonneg hpos).symm⟩

theorem readValue_decimal (n : ℤ) (hrest : NoDigit rest) :
    readValue (decimal n ++ rest) = some (.int n, rest) := by
  obtain ⟨k, rfl | ⟨rfl, hdec⟩⟩ := decimal_cases n
  · have hread := readNat_decimal k hrest
    obtain ⟨hne, hdigits⟩ := decimal_digits k
    cases hd : decimal k with
    | nil => exact absurd hd hne
    | cons c d =>
      have hc := hdigits c (hd ▸ mem_cons_self)
      rw [hd, cons_append] at hread
      rw [cons_append, readValue, if_neg (by rintro rfl; exact absurd hc (by decide)),
        if_neg (by rintro rfl; exact absurd hc (by decide)), hread]
      rfl
  · rw [hdec, cons_append, readValue, if_neg (by decide), if_pos rfl, readNat_decimal _ hrest]
    rfl

theorem readValue_bytes (v : Value) (hrest : NoDigit rest) :
    readValue (v.bytes ++ rest) = some (v, rest) := by
  cases v with
  | str s =>
    rw [Value.bytes, cons_append, readValue, if_pos rfl, writeEscaped, append_assoc,
      singleton_append, readChars_flatMap]
    rfl
  | int n => exact readValue_decimal n hrest

variable {c : Call}

theorem readField_bytes (h : Plain c.field.1) (hrest : NoDigit rest) :
    readField (c.bytes ++ rest) = some (c.field, rest) := by
  have hkey (bs : List Byte) :
      readChars .plain (c.field.1 ++ quote :: bs) = some (c.field.1, bs) := by
    rw [← readChars_flatMap, h.flatMap_escape]
  rw [Call.bytes, cons_append, readField, if_pos rfl, append_assoc, cons_append, hkey]
  simp only [Option.bind_some, cons_append, head?_cons, if_true, tail_cons, readValue_bytes _ hrest]
  rfl

theorem readFields_bytes {cs : List Call} (h : ∀ x ∈ c :: cs, Plain x.field.1) (rest : List Byte)
    {fuel : ℕ} (hfuel : cs.length < fuel) :
    readFields fuel (c.bytes ++ (cs.flatMap (fun c => comma :: c.bytes) ++ rbrace :: rest)) =
      some (c.field :: cs.map Call.field, rest) := by
  have hc := h c mem_cons_self
  induction cs generalizing c fuel with
  | nil =>
    obtain ⟨fuel, rfl⟩ := Nat.exists_eq_succ_of_ne_zero (Nat.ne_zero_of_lt hfuel)
    rw [readFields, flatMap_nil, nil_append, readField_bytes hc (by simp [NoDigit, isDigit])]
    rfl
  | cons x cs ih =>
    obtain ⟨fuel, rfl⟩ := Nat.exists_eq_succ_of_ne_zero (Nat.ne_zero_of_lt hfuel)
    have hcs := fun y hy => h y (mem_cons_of_mem c hy)
    rw [readFields, flatMap_cons, cons_append, cons_append,
      readField_bytes hc (by simp [NoDigit, isDigit])]
    simp only [Option.bind_some, head?_cons, tail_cons, if_true, append_assoc]
    rw [ih hcs (Nat.lt_of_succ_lt_succ hfuel) (hcs x mem_cons_self)]
    rfl

theorem Value.le_of_mem_bytes {v : Value} {b : Byte} (hb : b ∈ v.bytes) : 0x20 ≤ b := by
  cases v with
  | str s =>
    have hescape : ∀ c : Byte, (escape c).all (0x20 ≤ ·) = true := by decide +kernel
    rcases mem_cons.mp hb with rfl | hb
    · decide
    rcases mem_append.mp hb with hb | hb
    · obtain ⟨c, -, hb⟩ := mem_flatMap.mp hb
      exact of_decide_eq_true (all_eq_true.mp (hescape c) b hb)
    · exact mem_singleton.mp hb ▸ by decide
  | int n =>
    have hdigit : ∀ b : Byte, isDigit b = true → 0x20 ≤ b := by decide +kernel
    obtain ⟨k, rfl | ⟨-, hdec⟩⟩ := decimal_cases n
    · exact hdigit b ((decimal_digits k).2 b hb)
    · rw [Value.bytes, hdec] at hb
      rcases mem_cons.mp hb with rfl | hb
      · decide
      · exact hdigit b ((decimal_digits k).2 b hb)

theorem Call.le_of_mem_bytes (h : Plain c.field.1) {b : Byte} (hb : b ∈ c.bytes) : 0x20 ≤ b := by
  simp only [Call.bytes, mem_cons, mem_append] at hb
  rcases hb with rfl | hb | rfl | rfl | hb
  · decide
  · exact (h b hb).2.2
  · decide
  · decide
  · exact Value.le_of_mem_bytes hb

/-- Whatever fields are written, with keys that need no escapes: what is written is a line without
control characters, and reading it gives the keys and values. -/
theorem structured_output (calls : List Call) (h : ∀ c ∈ calls, Plain c.field.1) :
    ∃ line, output calls = line ++ [newline] ∧ (∀ b ∈ line, 0x20 ≤ b) ∧
      readObject line = some (calls.map Call.field, []) := by
  cases calls with
  | nil => exact ⟨[lbrace, rbrace], rfl, by decide, rfl⟩
  | cons c cs =>
    have hlen : cs.length ≤ (cs.flatMap fun c => comma :: c.bytes).length := by
      clear h
      induction cs with
      | nil => exact le_rfl
      | cons c cs ih => simp only [flatMap_cons, length_append, length_cons]; omega
    refine ⟨_, output_cons c cs, fun b hb => ?_, ?_⟩
    · simp only [mem_cons, mem_append, mem_flatMap, not_mem_nil, or_false] at hb
      rcases hb with rfl | hb | ⟨x, hx, rfl | hb⟩ | rfl
      · decide
      · exact Call.le_of_mem_bytes (h c mem_cons_self) hb
      · decide
      · exact Call.le_of_mem_bytes (h x (mem_cons_of_mem c hx)) hb
      · decide
    · rw [readObject, head?_cons, if_pos rfl, tail_cons, if_neg (by simp [Call.bytes])]
      exact readFields_bytes h [] (by simp only [length_cons, length_append]; omega)

/-- A field with escapes, and the smallest number. -/
theorem structured_output_escapes :
    let calls := [.str (some [107]) (some [34, 1, 10]), .int (some [110]) 0x80000000]
    ∃ line, output calls = line ++ [newline] ∧ (∀ b ∈ line, 0x20 ≤ b) ∧
      readObject line = some ([([107], .str [34, 1, 10]), ([110], .int (-2 ^ 31))], []) :=
  structured_output _ (by decide)

end Dave.Structio
