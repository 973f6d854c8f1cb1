import Dave.User.Ted.Buffer

/-!
# Loading a file into the line editor

`load_file` reads a file byte by byte. A line that begins with digits has that number, and any other
line has the next multiple of ten or so. Lines are cut to the length of a buffer, the number
included.
-/

namespace Dave.Ted

open List Dave.Fs SortedMap

/-- The characters `9`, tab and carriage return. -/
abbrev nine : Byte := 57

@[inherit_doc nine] abbrev tab : Byte := 9

@[inherit_doc nine] abbrev cr : Byte := 13

/-! ### Numbers -/

/-- Whether a character is a digit. -/
def isDigit (c : Byte) : Bool := zero ≤ c ∧ c ≤ nine

/-- Whether a character is a blank. -/
def isBlank (c : Byte) : Bool := c = space ∨ c = tab

def skipws (s : Str) : Str := s.dropWhile isBlank

/-- The loop of `parse_int_token`: the number, whether there was a digit, and the rest. There is no
result if the number does not fit an `int`, where C leaves the behaviour undefined. -/
def parseLoop : ℕ → Bool → Str → Option (ℕ × Bool × Str)
  | n, any, [] => some (n, any, [])
  | n, any, c :: p =>
    if isDigit c then
      if n * 10 + (c.toNat - 48) < 2 ^ 31 then parseLoop (n * 10 + (c.toNat - 48)) true p else none
    else some (n, any, c :: p)

def parseIntToken (s : Str) : Option (Word × Bool × Str) :=
  (parseLoop 0 false s).map fun r => (BitVec.ofNat 32 r.1, r.2)

/-- A result that is there unless an `int` overflows. -/
def orOverflow {α : Type} : Option α → T α
  | some a => return a
  | none => throw .overflow

/-- The number that digits stand for, after those of `a`. -/
def valueFrom (a : ℕ) (d : Str) : ℕ := d.foldl (fun a c => a * 10 + (c.toNat - 48)) a

/-- The number that digits stand for. -/
def value (d : Str) : ℕ := valueFrom 0 d

section Numbers

variable {d rest : Str}

/-- The rest of the line does not go on with a digit. -/
def NoDigit (rest : Str) : Prop := ∀ c ∈ rest.head?, isDigit c = false

theorem le_valueFrom (a : ℕ) (d : Str) : a ≤ valueFrom a d := by
  induction d generalizing a with
  | nil => exact le_rfl
  | cons c d ih => exact le_trans (by omega) (ih (a * 10 + (c.toNat - 48)))

theorem parseLoop_digits (hd : ∀ c ∈ d, isDigit c = true) (hrest : NoDigit rest) {a : ℕ}
    (ha : a < 2 ^ 31) (any : Bool) : parseLoop a any (d ++ rest) =
      if valueFrom a d < 2 ^ 31 then some (valueFrom a d, any || !d.isEmpty, rest) else none := by
  induction d generalizing a any with
  | nil =>
    rw [nil_append, isEmpty_nil, Bool.not_true, Bool.or_false, valueFrom, foldl_nil, if_pos ha]
    cases rest with
    | nil => rfl
    | cons c rest => rw [parseLoop, hrest c rfl, if_neg Bool.false_ne_true]
  | cons c d ih =>
    have hle := le_valueFrom (a * 10 + (c.toNat - 48)) d
    rw [cons_append, parseLoop, hd c mem_cons_self, if_pos rfl,
      show valueFrom a (c :: d) = valueFrom (a * 10 + (c.toNat - 48)) d from rfl]
    split_ifs with hnext hall hall
    · rw [ih (fun c h => hd c (mem_cons_of_mem _ h)) hnext, if_pos hall]
      simp
    · rw [ih (fun c h => hd c (mem_cons_of_mem _ h)) hnext, if_neg hall]
    · omega
    · rfl

theorem parse_digits (hd : ∀ c ∈ d, isDigit c = true) (hne : d ≠ []) (hrest : NoDigit rest) :
    parseIntToken (d ++ rest) =
      if value d < 2 ^ 31 then some (BitVec.ofNat 32 (value d), true, rest) else none := by
  rw [parseIntToken, parseLoop_digits hd hrest (by decide), ← value]
  cases d with
  | nil => exact absurd rfl hne
  | cons c d => split_ifs <;> rfl

theorem value_decimal (n : ℕ) : value (decimal n) = n := by
  have hnot : ¬ ((n : ℤ) < 0) := by omega
  rw [decimal, if_neg hnot, nil_append, Int.natAbs_natCast]
  induction n using Nat.strongRecOn with
  | ind n ih =>
    have hdigit {k : ℕ} (hk : k < 10) :
        (BitVec.ofNat 8 (Nat.digitChar k).toNat).toNat - 48 = k := by
      have hall : ∀ k : Fin 10, (BitVec.ofNat 8 (Nat.digitChar k).toNat).toNat - 48 = k := by decide
      exact hall ⟨k, hk⟩
    rw [Nat.toDigits_eq_if (by omega)]
    split_ifs with hsmall
    · rw [map_singleton, value, valueFrom, foldl_cons, foldl_nil, hdigit hsmall]
      omega
    · have hrec := ih (n / 10) (by omega) (by omega)
      rw [value, valueFrom] at hrec ⊢
      rw [map_append, foldl_append, hrec, map_singleton, foldl_cons,
        foldl_nil, hdigit (Nat.mod_lt _ (by omega))]
      omega

theorem decimal_digits (n : ℕ) : decimal n ≠ [] ∧ ∀ c ∈ decimal n, isDigit c = true := by
  have hnot : ¬ ((n : ℤ) < 0) := by omega
  rw [decimal, if_neg hnot, nil_append, Int.natAbs_natCast]
  induction n using Nat.strongRecOn with
  | ind n ih =>
    have hdigit {k : ℕ} (hk : k < 10) :
        isDigit (BitVec.ofNat 8 (Nat.digitChar k).toNat) = true := by
      have hall : ∀ k : Fin 10, isDigit (BitVec.ofNat 8 (Nat.digitChar k).toNat) = true := by decide
      exact hall ⟨k, hk⟩
    rw [Nat.toDigits_eq_if (by omega)]
    split_ifs with hsmall
    · exact ⟨by simp, fun c hc => mem_singleton.mp hc ▸ hdigit hsmall⟩
    · rw [map_append, map_singleton]
      refine ⟨by simp, fun c hc => ?_⟩
      rcases mem_append.mp hc with hc | hc
      · exact (ih (n / 10) (by omega) (by omega)).2 c hc
      · exact mem_singleton.mp hc ▸ hdigit (Nat.mod_lt _ (by omega))

end Numbers

/-! ### `load_file` -/

/-- `linebuf[pos++] = ch`, where the first `pos` bytes of `linebuf` are these. -/
def storeChar (linebuf : List Byte) (ch : Byte) : T (List Byte) :=
  if linebuf.length < maxCols then return linebuf ++ [ch] else throw .linebuf

/-- `linebuf[pos] = 0`, and the string that is then in `linebuf`. -/
def endLine (linebuf : List Byte) : T Str :=
  if linebuf.length < maxCols then return linebuf.takeWhile (· ≠ 0) else throw .linebuf

/-- The number and the text of a line of the file, where `last` is the largest number so far, and
`last` after this. A line without a number has the number `last + 10`. -/
def numbered (line : Str) (last : Word) : Option (Word × Str × Word) :=
  match parseIntToken line with
  | none => none
  | some (number, true, tmp) => some (number, skipws tmp, last)
  | some (_, false, _) =>
    if last.toInt + 10 < 2 ^ 31 then some (last + 10, line, last + 10) else none

/-- `last`, after a line with this number. -/
def nextLast (number last : Word) : Word := if last.toInt < number.toInt then number else last

/-- The loop of `load_file`. -/
def loadLoop : List Byte → List Byte → Word → T (List Byte × Word)
  | [], linebuf, last => return (linebuf, last)
  | ch :: bytes, linebuf, last =>
    if ch = cr then loadLoop bytes linebuf last
    else if ch = newline then do
      let r ← orOverflow (numbered (← endLine linebuf) last)
      upsertLine r.1 r.2.1 false
      loadLoop bytes [] (nextLast r.1 r.2.2)
    else if linebuf.length < maxCols - 1 then do
      loadLoop bytes (← storeChar linebuf ch) last
    else loadLoop bytes linebuf last

abbrev maxFile : ℕ := 128

def setFilename (name : Str) : T Unit :=
  modify fun s => { s with currentFile := (name.takeWhile (· ≠ 0)).take (maxFile - 1) }

/-- `load_file`, for a file with these contents, or one that cannot be opened. -/
def loadFile (contents : Option (List Byte)) (name : Str) : T Unit := do
  clearBuffer
  match contents with
  | none => setFilename name
  | some bytes =>
    let (linebuf, last) ← loadLoop bytes [] 0
    if 0 < linebuf.length then
      let r ← orOverflow (numbered (← endLine linebuf) last)
      upsertLine r.1 r.2.1 false
    modify fun s => { s with dirty := false }
    setFilename name

/-! ### The lines of a file -/

/-- The lines after `upsert_line`. -/
def putLine (number : Word) (text : Str) (ls : List Line) : List Line :=
  if maxLines ≤ ls.length then ls else put Line.key (mkLine number text) ls

/-- The loop of `load_file`, for the lines as a list: the lines, `linebuf` and `last`. -/
def loadedLoop : List Byte → List Byte → Word → List Line → Option (List Line × List Byte × Word)
  | [], linebuf, last, ls => some (ls, linebuf, last)
  | ch :: bytes, linebuf, last, ls =>
    if ch = cr then loadedLoop bytes linebuf last ls
    else if ch = newline then
      (numbered (linebuf.takeWhile (· ≠ 0)) last).bind fun r =>
        loadedLoop bytes [] (nextLast r.1 r.2.2) (putLine r.1 r.2.1 ls)
    else if linebuf.length < maxCols - 1 then loadedLoop bytes (linebuf ++ [ch]) last ls
    else loadedLoop bytes linebuf last ls

/-- The lines that a file gives, unless a number overflows. -/
def loaded (bytes : List Byte) : Option (List Line) :=
  (loadedLoop bytes [] 0 []).bind fun r =>
    if 0 < r.2.1.length then
      (numbered (r.2.1.takeWhile (· ≠ 0)) r.2.2).map fun line => putLine line.1 line.2.1 r.1
    else some r.1

variable {E : Fault → Prop} {s : Ed}

theorem wp_orOverflow {α : Type} {o : Option α} {Q : α → Ed → Prop}
    (hnone : o = none → E .overflow) (hsome : ∀ a, o = some a → Q a s) :
    Wp E (orOverflow o) Q s := by
  cases o with
  | none => exact hnone rfl
  | some a => exact hsome a rfl

theorem wp_upsertLine_eq (hs : s.Fits) (number : Word) (text : Str) (markDirty : Bool) :
    Wp E (upsertLine number text markDirty) (fun _ s' => s'.Fits ∧
      s'.lines = putLine number text s.lines ∧ s'.currentFile = s.currentFile) s := by
  refine (wp_upsertLine hs number text markDirty).mono fun _ s' h => ?_
  rw [putLine, Ed.length_lines]
  by_cases hfull : maxLines ≤ s.lineCount
  · rw [if_pos hfull, h.1 hfull]
    exact ⟨hs, rfl, rfl⟩
  · have hc := h.2 (not_le.mp hfull)
    rw [if_neg hfull]
    exact ⟨hc.fits, hc.lines, hc.currentFile⟩

variable {bytes linebuf : List Byte} {last : Word}

/-- The loop over the bytes of a file computes `loadedLoop`. -/
theorem wp_loadLoop (hs : s.Fits) (hlen : linebuf.length < maxCols)
    (hE : loadedLoop bytes linebuf last s.lines = none → E .overflow) :
    Wp E (loadLoop bytes linebuf last) (fun r s' => s'.Fits ∧ r.1.length < maxCols ∧
      loadedLoop bytes linebuf last s.lines = some (s'.lines, r)) s := by
  induction bytes generalizing s linebuf last with
  | nil => exact ⟨hs, hlen, rfl⟩
  | cons ch bytes ih =>
    rw [loadedLoop] at hE ⊢
    rw [loadLoop]
    split_ifs at hE ⊢ with hcr hnl hroom
    · exact ih hs hlen hE
    · simp only [endLine, if_pos hlen, wp_bind, wp_pure]
      refine wp_orOverflow (fun hnone => hE (by rw [hnone]; rfl)) fun r hr => ?_
      rw [hr, Option.bind_some] at hE ⊢
      refine (wp_upsertLine_eq hs _ _ false).mono fun _ s₁ h => ?_
      rw [← h.2.1] at hE ⊢
      exact ih h.1 (by decide) hE
    · simp only [storeChar, if_pos hlen, wp_bind, wp_pure]
      exact ih hs (by rw [length_append, length_singleton]; omega) hE
    · exact ih hs hlen hE

/-- `load_file` replaces the buffer by the lines of the file. -/
theorem wp_loadFile (contents : Option (List Byte)) (name : Str)
    (hE : contents.elim (some []) loaded = none → E .overflow) :
    Wp E (loadFile contents name) (fun _ s' => s'.Fits ∧
      contents.elim (some []) loaded = some s'.lines ∧ s'.dirty = false) s := by
  simp only [loadFile, clearBuffer, wp_bind, wp_modify]
  cases contents with
  | none =>
    simp only [setFilename, wp_modify]
    exact ⟨Nat.zero_le _, rfl, trivial⟩
  | some bytes =>
    rw [Option.elim_some, loaded] at hE ⊢
    simp only [wp_bind]
    refine (wp_loadLoop (Nat.zero_le _) (by decide) fun hnone => hE ?_).mono fun r s₁ h => ?_
    · rw [show ({ s with lineCount := 0, dirty := false } : Ed).lines = [] from rfl] at hnone
      rw [hnone]
      rfl
    obtain ⟨hfits, hlen, hloaded⟩ := h
    rw [show ({ s with lineCount := 0, dirty := false } : Ed).lines = [] from rfl] at hloaded
    rw [hloaded, Option.bind_some] at hE ⊢
    dsimp only at hE ⊢
    split_ifs at hE ⊢ with hpos
    · simp only [endLine, if_pos hlen, wp_bind, wp_pure]
      refine wp_orOverflow (fun hnone => hE (by rw [hnone]; rfl)) fun r hr => ?_
      rw [hr, Option.map_some]
      refine (wp_upsertLine_eq hfits _ _ false).mono fun _ s₂ h => ?_
      simp only [wp_modify, setFilename]
      exact ⟨h.1, congrArg some h.2.1.symm, trivial⟩
    · simp only [wp_modify, setFilename, wp_bind]
      exact ⟨hfits, rfl, trivial⟩

/-! ### The buffer as a map -/

theorem sorted_putLine {ls : List Line} (h : Sorted Line.key ls) (number : Word) (text : Str) :
    Sorted Line.key (putLine number text ls) := by
  rw [putLine]
  split_ifs
  · exact h
  · exact h.put _

theorem sorted_loadedLoop {ls : List Line} (h : Sorted Line.key ls)
    {r : List Line × List Byte × Word} (hr : loadedLoop bytes linebuf last ls = some r) :
    Sorted Line.key r.1 := by
  induction bytes generalizing linebuf last ls with
  | nil =>
    cases hr
    exact h
  | cons ch bytes ih =>
    rw [loadedLoop] at hr
    split_ifs at hr
    · exact ih h hr
    · obtain ⟨line, -, hr⟩ := Option.bind_eq_some_iff.mp hr
      exact ih (sorted_putLine h _ _) hr
    · exact ih h hr
    · exact ih h hr

theorem sorted_loaded {ls : List Line} (h : loaded bytes = some ls) : Sorted Line.key ls := by
  obtain ⟨r, hr, h⟩ := Option.bind_eq_some_iff.mp h
  have hloop := sorted_loadedLoop List.Pairwise.nil hr
  split_ifs at h
  · obtain ⟨line, -, rfl⟩ := Option.map_eq_some_iff.mp h
    exact sorted_putLine hloop _ _
  · cases h
    exact hloop

/-- The changes of the buffer. -/
inductive Op where
  | upsert (number : Word) (text : Str) (markDirty : Bool)
  | delete (number : Word) (markDirty : Bool)
  | clear
  | load (contents : Option (List Byte)) (name : Str)

/-- The function that makes a change. -/
def Op.run : Op → T Unit
  | .upsert number text markDirty => upsertLine number text markDirty
  | .delete number markDirty => deleteLineNumber number markDirty
  | .clear => clearBuffer
  | .load contents name => loadFile contents name

/-- Changes, one after the other. -/
def runs : List Op → T Unit
  | [] => return ()
  | op :: ops => do
    op.run
    runs ops

/-- The state in which the editor starts. -/
def Ed.start : Ed := ⟨fun _ => mkLine 0 [], 0, false, []⟩

structure Ed.Sound (s : Ed) : Prop where
  fits : s.Fits
  sorted : Sorted Line.key s.lines

theorem Ed.sound_start : Ed.start.Sound := ⟨Nat.zero_le _, List.Pairwise.nil⟩

theorem Op.wp_run (op : Op) (hs : s.Sound) (hE : E .overflow) :
    Wp E op.run (fun _ s' => s'.Sound) s := by
  cases op with
  | upsert number text markDirty =>
    refine (wp_upsertLine_eq hs.fits number text markDirty).mono fun _ s' h => ⟨h.1, ?_⟩
    rw [h.2.1]
    exact sorted_putLine hs.sorted number text
  | delete number markDirty =>
    refine (wp_deleteLineNumber hs.fits number markDirty).mono fun _ s' h => ⟨h.2.fits, ?_⟩
    rw [h.2.lines]
    exact hs.sorted.del _
  | clear => exact ⟨Nat.zero_le _, List.Pairwise.nil⟩
  | load contents name =>
    refine (wp_loadFile contents name fun _ => hE).mono fun _ s' h => ⟨h.1, ?_⟩
    cases contents with
    | none =>
      rw [← Option.some.inj h.2.1]
      exact List.Pairwise.nil
    | some bytes => exact sorted_loaded h.2.1

theorem wp_runs (ops : List Op) (hs : s.Sound) (hE : E .overflow) :
    Wp E (runs ops) (fun _ s' => s'.Sound) s := by
  induction ops generalizing s with
  | nil => exact hs
  | cons op ops ih =>
    rw [runs, wp_bind]
    exact (op.wp_run hs hE).mono fun _ s₁ hs₁ => ih hs₁

theorem Ed.key_pos {k : ℤ} (hs : s.Sound) {j : ℕ} (hj : j < s.lineCount) :
    (s.buffer j).key < k ↔ j < pos Line.key k s.lines := by
  have hlt : j < s.lines.length := by rwa [Ed.length_lines]
  have hline : s.lines[j] = s.buffer j := by simp [Ed.lines]
  rw [← hs.sorted.lt_pos_iff hlt, hline]

/-- Any changes, none of which uses an entry outside the arrays, lead to a state in which there are
at most `MAX_LINES` lines, with increasing numbers, unless a number in a file overflows an `int`.
`find_insert_index` returns the place of a number; `upsert_line` binds a number to the text, cut to
`MAX_COLS - 1` bytes, if there is room, and changes nothing otherwise; `delete_line_number` removes
a number; both keep all other lines. -/
theorem buffer_is_map (ops : List Op) : runs ops Ed.start = .error .overflow ∨
    ∃ s, runs ops Ed.start = .ok ((), s) ∧ s.lineCount ≤ maxLines ∧
    (∀ i j, i < j → j < s.lineCount → (s.buffer i).number.toInt < (s.buffer j).number.toInt) ∧
    (∀ number : Word, ∃ idx, findInsertIndex number s = .ok (idx, s) ∧ idx ≤ s.lineCount ∧
      ∀ j < s.lineCount, (s.buffer j).number.toInt < number.toInt ↔ j < idx) ∧
    (∀ number text markDirty, s.lineCount < maxLines → ∃ s',
      upsertLine number text markDirty s = .ok ((), s') ∧
      ∀ l, l ∈ s'.lines ↔ l = mkLine number text ∨ l ∈ s.lines ∧ l.number ≠ number) ∧
    (∀ number text markDirty, maxLines ≤ s.lineCount →
      upsertLine number text markDirty s = .ok ((), s)) ∧
    ∀ number markDirty, ∃ s', deleteLineNumber number markDirty s = .ok ((), s') ∧
      ∀ l, l ∈ s'.lines ↔ l ∈ s.lines ∧ l.number ≠ number := by
  have hwp := wp_runs (E := (· = .overflow)) ops Ed.sound_start rfl
  cases hrun : runs ops Ed.start with
  | error e => exact .inl (congrArg _ (hwp.of_error hrun))
  | ok r =>
  obtain ⟨⟨⟩, s⟩ := r
  have hs := hwp.of_ok hrun
  refine .inr ⟨s, rfl, hs.fits, fun i j hij hj => ?_, fun number => ?_,
    fun number text mark hroom => ?_, fun number text mark hfull => ?_, fun number mark => ?_⟩
  · have hsorted := pairwise_iff_getElem.mp hs.sorted i j (by simp; omega) (by simp; omega) hij
    simpa [Ed.lines] using hsorted
  · obtain ⟨idx, s', hfind, rfl, rfl⟩ := (wp_findInsertIndex hs.fits number).exists_ok
    exact ⟨_, hfind, Ed.pos_le _ _, fun j hj => Ed.key_pos hs hj⟩
  · obtain ⟨⟨⟩, s', hup, h⟩ := (wp_upsertLine hs.fits number text mark).exists_ok
    refine ⟨s', hup, fun l => ?_⟩
    rw [(h.2 hroom).lines, hs.sorted.mem_put]
    simp only [Line.key, ne_eq, BitVec.toInt_inj, mkLine]
  · obtain ⟨⟨⟩, s', hup, h⟩ := (wp_upsertLine hs.fits number text mark).exists_ok
    rw [hup, h.1 hfull]
  · obtain ⟨⟨⟩, s', hdel, h⟩ := (wp_deleteLineNumber hs.fits number mark).exists_ok
    refine ⟨s', hdel, fun l => ?_⟩
    rw [h.2.lines, hs.sorted.mem_del]
    simp only [Line.key, ne_eq, BitVec.toInt_inj]

end Dave.Ted
