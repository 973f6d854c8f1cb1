import Dave.Lib.SortedMap
import Dave.User.Ted
import Mathlib.Data.List.TakeWhile

/-!
# The buffer of the line editor

`ted` keeps its lines in an array, in the order of their numbers. To insert a line it moves the
lines behind it up by one, and to delete a line it moves them down. The first `line_count` entries
of the array are a finite map from numbers to texts.
-/

namespace Dave.Ted

open List Function Dave.Fs SortedMap

abbrev maxLines : ℕ := 512

/-- The state of the editor: `buffer`, `line_count`, `dirty` and `current_file`. Only the first
`MAX_LINES` entries of `buffer` exist. -/
structure Ed where
  buffer : ℕ → Line
  lineCount : ℕ
  dirty : Bool
  currentFile : Str

/-- The errors that the code must not make. -/
inductive Fault where
  /-- an entry outside `buffer` -/
  | buffer
  /-- a byte outside `linebuf` -/
  | linebuf
  /-- a number that does not fit an `int` -/
  | overflow
deriving DecidableEq

abbrev T : Type → Type := StateT Ed (Except Fault)

/-- The number of a line, as an `int`. -/
abbrev Line.key (l : Line) : ℤ := l.number.toInt

def Ed.lines (s : Ed) : List Line := (range s.lineCount).map s.buffer

/-! ### The functions -/

/-- `buffer[i]` -/
def readLine (i : ℕ) : T Line := do
  let s ← get
  if i < maxLines then return s.buffer i else throw .buffer

/-- `buffer[i] = l` -/
def writeLine (i : ℕ) (l : Line) : T Unit :=
  if i < maxLines then modify fun s => { s with buffer := update s.buffer i l }
  else throw .buffer

/-- The loop of `find_insert_index`. It makes at most `line_count` rounds. -/
def findLoop (number : ℤ) : ℕ → ℕ → T ℕ
  | 0, i => return i
  | fuel + 1, i => do
    if i < (← get).lineCount then
      if (← readLine i).key < number then findLoop number fuel (i + 1) else return i
    else return i

def findInsertIndex (number : Word) : T ℕ := do
  findLoop number.toInt (← get).lineCount 0

/-- `idx < line_count && buffer[idx].number == number` -/
def isAt (idx : ℕ) (number : Word) : T Bool := do
  if idx < (← get).lineCount then return decide ((← readLine idx).number = number)
  else return false

/-- The text that `editor_copy` makes of a string, for an array of `MAX_COLS` bytes. -/
def editorCopy (src : Str) : Str := (src.takeWhile (· ≠ 0)).take (maxCols - 1)

theorem takeWhile_ne_zero {t : Str} (h : 0 ∉ t) : t.takeWhile (· ≠ 0) = t := by
  refine takeWhile_eq_self_iff.mpr fun b hb => decide_eq_true ?_
  rintro rfl
  exact h hb

/-- A line with a text that `editor_copy` has made. -/
def mkLine (number : Word) (src : Str) : Line where
  number := number
  text := editorCopy src
  ne_zero h := by
    have := mem_takeWhile_imp (mem_of_mem_take h)
    simp at this
  length_lt := by
    have := length_take_le (maxCols - 1) (src.takeWhile (· ≠ 0))
    exact Nat.lt_of_le_of_lt this (by decide)

/-- `if(mark_dirty) dirty = 1;` -/
def mark (markDirty : Bool) : T Unit :=
  if markDirty then modify fun s => { s with dirty := true } else return ()

/-- The loop of `upsert_line`, from entry `i` down to the one above `idx`. -/
def shiftUp (idx : ℕ) : ℕ → T Unit
  | 0 => return ()
  | i + 1 =>
    if idx < i + 1 then do
      writeLine (i + 1) (← readLine i)
      shiftUp idx i
    else return ()

def upsertLine (number : Word) (text : Str) (markDirty : Bool) : T Unit := do
  if maxLines ≤ (← get).lineCount then return ()
  else do
    let idx ← findInsertIndex number
    if ← isAt idx number then
      writeLine idx (mkLine (← readLine idx).number text)
    else do
      shiftUp idx (← get).lineCount
      writeLine idx (mkLine number text)
      modify fun s => { s with lineCount := s.lineCount + 1 }
    mark markDirty

/-- The loop of `delete_line_number`, from entry `i` on. It makes `fuel` rounds. -/
def shiftDown : ℕ → ℕ → T Unit
  | 0, _ => return ()
  | fuel + 1, i => do
    writeLine i (← readLine (i + 1))
    shiftDown fuel (i + 1)

def deleteLineNumber (number : Word) (markDirty : Bool) : T Unit := do
  let idx ← findInsertIndex number
  if !(← isAt idx number) then return ()
  else do
    shiftDown ((← get).lineCount - 1 - idx) idx
    modify fun s => { s with lineCount := s.lineCount - 1 }
    mark markDirty

def clearBuffer : T Unit := modify fun s => { s with lineCount := 0, dirty := false }

/-! ### The functions on the list -/

variable {E : Fault → Prop} {s : Ed} {i idx : ℕ} {number : Word} {text : Str}

/-- There are not more lines than entries. -/
def Ed.Fits (s : Ed) : Prop := s.lineCount ≤ maxLines

@[simp] theorem Ed.length_lines (s : Ed) : s.lines.length = s.lineCount := by
  rw [Ed.lines, length_map, length_range]

theorem Ed.getElem?_lines (hi : i < s.lineCount) : s.lines[i]? = some (s.buffer i) := by
  rw [Ed.lines, getElem?_map, getElem?_range hi, Option.map_some]

theorem Ed.lines_eq {l : List Line} (hlen : l.length = s.lineCount)
    (h : ∀ j < s.lineCount, l[j]? = some (s.buffer j)) : s.lines = l := by
  refine ext_getElem? fun j => ?_
  by_cases hj : j < s.lineCount
  · rw [Ed.getElem?_lines hj, h j hj]
  · rw [getElem?_eq_none (by rw [Ed.length_lines]; omega), getElem?_eq_none (by omega)]

@[simp] theorem wp_readLine {Q : Line → Ed → Prop} (hi : i < maxLines) :
    Wp E (readLine i) Q s ↔ Q (s.buffer i) s := by
  simp only [readLine, wp_bind, wp_get, if_pos hi, wp_pure]

variable {Q : Unit → Ed → Prop}

@[simp] theorem wp_writeLine {l : Line} (hi : i < maxLines) :
    Wp E (writeLine i l) Q s ↔ Q () { s with buffer := update s.buffer i l } := by
  simp only [writeLine, if_pos hi, wp_modify]

variable {k : ℤ}

theorem Ed.pos_lines (hi : i ≤ s.lineCount) (hlow : ∀ j < i, (s.buffer j).key < k)
    (hat : i < s.lineCount → k ≤ (s.buffer i).key) : pos Line.key k s.lines = i := by
  rcases hi.lt_or_eq with hi | rfl
  · refine (findIdx_eq (by rwa [Ed.length_lines])).mpr ⟨?_, fun j hj => ?_⟩
    · simpa [Ed.lines] using hat hi
    · simpa [Ed.lines] using hlow j hj
  · rw [← Ed.length_lines]
    refine findIdx_eq_length.mpr fun l hl => ?_
    obtain ⟨j, hj, rfl⟩ := mem_map.mp hl
    simpa using hlow j (mem_range.mp hj)

theorem wp_findLoop (hs : s.Fits) {fuel : ℕ} (hfuel : s.lineCount ≤ i + fuel) (hi : i ≤ s.lineCount)
    (hlow : ∀ j < i, (s.buffer j).key < k) :
    Wp E (findLoop k fuel i) (fun r s' => r = pos Line.key k s.lines ∧ s' = s) s := by
  induction fuel generalizing i with
  | zero => exact ⟨(Ed.pos_lines hi hlow (by omega)).symm, rfl⟩
  | succ fuel ih =>
    simp only [findLoop, wp_bind, wp_get]
    by_cases hlt : i < s.lineCount
    · rw [if_pos hlt, wp_bind, wp_readLine (hlt.trans_le hs)]
      split_ifs with hkey
      · refine ih (by omega) hlt fun j hj => ?_
        rcases Nat.lt_succ_iff_lt_or_eq.mp hj with hj | rfl
        · exact hlow j hj
        · exact hkey
      · exact ⟨(Ed.pos_lines hi hlow fun _ => not_lt.mp hkey).symm, rfl⟩
    · rw [if_neg hlt]
      exact ⟨(Ed.pos_lines hi hlow fun h => absurd h hlt).symm, rfl⟩

theorem wp_findInsertIndex (hs : s.Fits) (number : Word) : Wp E (findInsertIndex number)
      (fun r s' => r = pos Line.key number.toInt s.lines ∧ s' = s) s := by
  simp only [findInsertIndex, wp_bind, wp_get]
  exact wp_findLoop hs (by omega) (Nat.zero_le _) fun j hj => absurd hj (Nat.not_lt_zero j)

theorem wp_isAt (hs : s.Fits) (number : Word) :
    Wp E (isAt (pos Line.key number.toInt s.lines) number)
      (fun r s' => r = decide (Hit Line.key number.toInt s.lines) ∧ s' = s) s := by
  simp only [isAt, wp_bind, wp_get]
  by_cases hlt : pos Line.key number.toInt s.lines < s.lineCount
  · rw [if_pos hlt, wp_bind, wp_readLine (hlt.trans_le hs)]
    refine ⟨decide_eq_decide.mpr ?_, rfl⟩
    rw [Hit, Ed.getElem?_lines hlt, Option.map_some, Option.some.injEq, BitVec.toInt_inj]
  · rw [if_neg hlt]
    refine ⟨(decide_eq_false ?_).symm, rfl⟩
    rw [Hit, getElem?_eq_none (by rw [Ed.length_lines]; omega)]
    exact fun h => Option.some_ne_none _ h.symm

theorem wp_shiftUp (hi : i < maxLines) : Wp E (shiftUp idx i) (fun _ s' => s' = { s with
      buffer := fun j => if idx < j ∧ j ≤ i then s.buffer (j - 1) else s.buffer j }) s := by
  induction i generalizing s with
  | zero =>
    have hsame : (fun j => if idx < j ∧ j ≤ 0 then s.buffer (j - 1) else s.buffer j) = s.buffer :=
      funext fun j => if_neg (by omega)
    rw [hsame]
    rfl
  | succ i ih =>
    rw [shiftUp]
    split_ifs with hidx
    · rw [wp_bind, wp_readLine (by omega), wp_bind, wp_writeLine hi]
      refine (ih (by omega)).mono fun _ s' hs' => hs'.trans ?_
      congr 1
      funext j
      dsimp only
      by_cases hj : j = i + 1
      · subst hj
        rw [if_neg (by omega), if_pos (by omega), update_self]
        rfl
      · by_cases hmoved : idx < j ∧ j ≤ i
        · rw [if_pos hmoved, if_pos (by omega), update_of_ne (by omega)]
        · rw [if_neg hmoved, if_neg (by omega), update_of_ne hj]
    · have hsame : (fun j => if idx < j ∧ j ≤ i + 1 then s.buffer (j - 1) else s.buffer j) =
          s.buffer := funext fun j => if_neg (by omega)
      rw [hsame]
      rfl

theorem wp_shiftDown {fuel : ℕ} (hi : i + fuel < maxLines) :
    Wp E (shiftDown fuel i) (fun _ s' => s' = { s with
      buffer := fun j => if i ≤ j ∧ j < i + fuel then s.buffer (j + 1) else s.buffer j }) s := by
  induction fuel generalizing s i with
  | zero =>
    have hsame : (fun j => if i ≤ j ∧ j < i + 0 then s.buffer (j + 1) else s.buffer j) = s.buffer :=
      funext fun j => if_neg (by omega)
    rw [hsame]
    rfl
  | succ fuel ih =>
    rw [shiftDown, wp_bind, wp_readLine (by omega), wp_bind, wp_writeLine (by omega)]
    refine (ih (by omega)).mono fun _ s' hs' => hs'.trans ?_
    congr 1
    funext j
    dsimp only
    by_cases hj : j = i
    · subst hj
      rw [if_neg (by omega), if_pos (by omega), update_self]
    · by_cases hmoved : i + 1 ≤ j ∧ j < i + 1 + fuel
      · rw [if_pos hmoved, if_pos (by omega), update_of_ne (by omega)]
      · rw [if_neg hmoved, if_neg (by omega), update_of_ne hj]

/-! ### The list -/

/-- What changes besides the lines. -/
structure Changed (s : Ed) (l : List Line) (dirty : Bool) (s' : Ed) : Prop where
  lines : s'.lines = l
  fits : s'.Fits
  dirty : s'.dirty = dirty
  currentFile : s'.currentFile = s.currentFile

theorem wp_mark (markDirty : Bool) :
    Wp E (mark markDirty) Q s ↔ Q () { s with dirty := s.dirty || markDirty } := by
  cases markDirty
  · rw [Bool.or_false]
    rfl
  · rw [Bool.or_true]
    rfl

theorem Ed.lines_update (l : Line) :
    ({ s with buffer := update s.buffer idx l } : Ed).lines = s.lines.set idx l := by
  refine Ed.lines_eq (by rw [length_set, Ed.length_lines]) fun j hj => ?_
  dsimp only at hj ⊢
  rw [getElem?_set, Ed.length_lines, Ed.getElem?_lines hj]
  by_cases hji : idx = j
  · subst hji
    rw [if_pos rfl, if_pos hj, update_self]
  · rw [if_neg hji, update_of_ne (Ne.symm hji)]

theorem Ed.lines_insert (hidx : idx ≤ s.lineCount) (l : Line) : ({ s with
      buffer := update
        (fun j => if idx < j ∧ j ≤ s.lineCount then s.buffer (j - 1) else s.buffer j) idx l
      lineCount := s.lineCount + 1 } : Ed).lines = s.lines.insertIdx idx l := by
  refine Ed.lines_eq ?_ fun j hj => ?_
  · rw [length_insertIdx, Ed.length_lines, if_pos hidx]
  · rw [getElem?_insertIdx, Ed.length_lines]
    dsimp only at hj ⊢
    rcases Nat.lt_trichotomy j idx with hlt | rfl | hgt
    · rw [if_pos hlt, Ed.getElem?_lines (by omega), update_of_ne (by omega), if_neg (by omega)]
    · rw [if_neg (Nat.lt_irrefl _), if_pos rfl, if_pos hidx, update_self]
    · rw [if_neg (by omega), if_neg (by omega), Ed.getElem?_lines (by omega),
        update_of_ne (by omega), if_pos (by omega)]

theorem Ed.lines_erase (hidx : idx < s.lineCount) : ({ s with
      buffer := fun j =>
        if idx ≤ j ∧ j < idx + (s.lineCount - 1 - idx) then s.buffer (j + 1) else s.buffer j
      lineCount := s.lineCount - 1 } : Ed).lines = s.lines.eraseIdx idx := by
  refine Ed.lines_eq ?_ fun j hj => ?_
  · rw [length_eraseIdx, Ed.length_lines, if_pos hidx]
  · rw [getElem?_eraseIdx]
    dsimp only at hj ⊢
    split_ifs with hlt hin
    · omega
    · rw [Ed.getElem?_lines (by omega)]
    · rw [Ed.getElem?_lines (by omega)]
    · omega

theorem Ed.pos_le (s : Ed) (k : ℤ) : pos Line.key k s.lines ≤ s.lineCount := by
  rw [← Ed.length_lines]
  exact findIdx_le_length

theorem Ed.pos_lt (h : Hit Line.key k s.lines) : pos Line.key k s.lines < s.lineCount := by
  rw [← Ed.length_lines]
  by_contra hge
  rw [Hit, getElem?_eq_none (not_lt.mp hge)] at h
  exact Option.some_ne_none _ h.symm

theorem wp_upsertLine (hs : s.Fits) (number : Word) (text : Str) (markDirty : Bool) :
    Wp E (upsertLine number text markDirty) (fun _ s' =>
      (maxLines ≤ s.lineCount → s' = s) ∧ (s.lineCount < maxLines →
        Changed s (put Line.key (mkLine number text) s.lines) (s.dirty || markDirty) s')) s := by
  simp only [upsertLine, wp_bind, wp_get]
  by_cases hfull : maxLines ≤ s.lineCount
  · rw [if_pos hfull]
    exact ⟨fun _ => rfl, fun hlt => absurd hfull (not_le.mpr hlt)⟩
  rw [if_neg hfull, wp_bind]
  refine (wp_findInsertIndex hs number).mono fun idx s₁ h => ?_
  obtain ⟨rfl, rfl⟩ := h
  rw [wp_bind]
  refine (wp_isAt hs number).mono fun hit s₂ h => ?_
  obtain ⟨rfl, rfl⟩ := h
  have hle := Ed.pos_le s₂ number.toInt
  have hfull' : s₂.lineCount < maxLines := not_le.mp hfull
  by_cases hhit : Hit Line.key number.toInt s₂.lines
  · have hlt := Ed.pos_lt hhit
    have hnum : (s₂.buffer (pos Line.key number.toInt s₂.lines)).number = number := by
      rw [Hit, Ed.getElem?_lines hlt, Option.map_some, Option.some.injEq] at hhit
      exact BitVec.toInt_inj.mp hhit
    simp only [hhit, decide_true, if_true, wp_bind, wp_readLine (hlt.trans_le hs),
      wp_writeLine (hlt.trans_le hs), wp_mark, hnum]
    have hput : put Line.key (mkLine number text) s₂.lines = s₂.lines.set _ _ := if_pos hhit
    rw [hput]
    exact ⟨fun h => absurd h hfull, fun _ => ⟨Ed.lines_update (s := s₂) _, hs, rfl, rfl⟩⟩
  · simp only [hhit, decide_false, Bool.false_eq_true, if_false, wp_bind, wp_get]
    refine (wp_shiftUp hfull').mono fun _ s₃ hs₃ => ?_
    subst hs₃
    simp only [wp_writeLine (hle.trans_lt hfull'), wp_modify, wp_mark]
    have hput : put Line.key (mkLine number text) s₂.lines = s₂.lines.insertIdx _ _ := if_neg hhit
    rw [hput]
    exact ⟨fun h => absurd h hfull, fun _ => ⟨Ed.lines_insert (s := s₂) hle _, hfull', rfl, rfl⟩⟩

theorem wp_deleteLineNumber (hs : s.Fits) (number : Word) (markDirty : Bool) :
    Wp E (deleteLineNumber number markDirty) (fun _ s' =>
      (¬ Hit Line.key number.toInt s.lines → s' = s) ∧
      Changed s (del Line.key number.toInt s.lines)
        (s.dirty || (markDirty && decide (Hit Line.key number.toInt s.lines))) s') s := by
  simp only [deleteLineNumber, wp_bind]
  refine (wp_findInsertIndex hs number).mono fun idx s₁ h => ?_
  obtain ⟨rfl, rfl⟩ := h
  refine (wp_isAt hs number).mono fun hit s₂ h => ?_
  obtain ⟨rfl, rfl⟩ := h
  rw [del]
  by_cases hhit : Hit Line.key number.toInt s₂.lines
  · have hlt := Ed.pos_lt hhit
    simp only [hhit, decide_true, Bool.not_true, Bool.false_eq_true, if_false, wp_bind, wp_get]
    refine (wp_shiftDown (by have := hs; rw [Ed.Fits] at this; omega)).mono fun _ s₃ hs₃ => ?_
    subst hs₃
    simp only [wp_modify, wp_mark, if_true, Bool.and_true]
    refine ⟨fun h => absurd trivial h, Ed.lines_erase (s := s₂) hlt,
      (Nat.sub_le _ _).trans hs, rfl, rfl⟩
  · simp only [hhit, decide_false, Bool.not_false, if_true, if_false, Bool.and_false, Bool.or_false]
    exact ⟨fun _ => rfl, rfl, hs, rfl, rfl⟩

end Dave.Ted
