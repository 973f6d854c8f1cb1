import Dave.User.Ted.Load
import Mathlib.Data.List.DropRight
import Mathlib.Data.Nat.Digits.Defs

/-!
# The commands of the line editor

The main loop of `ted` reads a line, and takes it as a line of the program if it begins with a digit
and as a command otherwise. It is meant to end when the input ends, but `gets` has no way to tell
it.

## Main results

* `wp_iteration`: the buffer stays in order.
* `parse_spec`: the number at the beginning of a line.
* Which buffers are loaded as they were saved, which lines are entered as they should be, and when
  the main loop ends.
-/

namespace Dave.Ted

open List Dave.Fs SortedMap

/-! ### Lines with a number -/

def handleLineInput (s : Str) : T Unit := do
  let (number, ok, s) ← orOverflow (parseIntToken s)
  if ok = false ∨ number.toInt ≤ 0 then return ()
  else
    let text := skipws s
    if text = [] then deleteLineNumber number true else upsertLine number text true

/-! ### Commands -/

/-- The files, as a command finds them. -/
structure Env where
  /-- what is read from a file, if it can be opened -/
  contents : Str → Option (List Byte)
  /-- whether a file can be opened for writing -/
  writable : Str → Bool

/-- A letter in upper case. -/
def upper (c : Byte) : Byte := if 97 ≤ c ∧ c ≤ 122 then c - 32 else c

/-- `to_upper`, for an array of 16 bytes. -/
def toUpper (src : Str) : Str := ((src.takeWhile fun c => !isBlank c).take 15).map upper

/-- What follows the first word. -/
def argsOf (s : Str) : Str := skipws (s.dropWhile fun c => !isBlank c)

/-- `save_file`, for the state of the editor. -/
def saved (e : Env) (name : Str) : T Unit :=
  if e.writable name then do
    modify fun s => { s with dirty := false }
    setFilename name
  else return ()

/-- A string of the program. -/
def str (s : String) : Str := s.toList.map fun c => BitVec.ofNat 8 c.toNat

/-- The command `LIST`, less what it prints. -/
def listCommand (args : Str) : T Unit :=
  if args = [] then return ()
  else do
    let (_, ok, args) ← orOverflow (parseIntToken args)
    if ok = false ∨ skipws args = [] then return ()
    else do
      let _ ← orOverflow (parseIntToken (skipws args))
      return ()

/-- `handle_command`, less what it prints. -/
def handleCommand (e : Env) (s : Str) : T Unit :=
  let cmd := toUpper s
  let args := argsOf s
  if cmd = str "HELP" ∨ cmd = str "H" then return ()
  else if cmd = str "LIST" ∨ cmd = str "L" then listCommand args
  else if cmd = str "DELETE" ∨ cmd = str "D" then do
    let (number, ok, _) ← orOverflow (parseIntToken args)
    if ok then deleteLineNumber number true else return ()
  else if cmd = str "NEW" then clearBuffer
  else if cmd = str "OPEN" ∨ cmd = str "O" then
    if args = [] then return () else loadFile (e.contents args) args
  else if cmd = str "WRITE" ∨ cmd = str "W" ∨ cmd = str "SAVE" then do
    let s ← get
    let name := if args = [] then s.currentFile else args
    if name = [] then return () else saved e name
  else return ()

/-! ### The main loop -/

/-- The loop of `gets`, for an array with room for so many bytes: what it has read, and what is left
of the input. -/
def getsLoop : ℕ → List Byte → List Byte × List Byte
  | 0, input => ([], input)
  | _ + 1, [] => ([], [])
  | room + 1, c :: input =>
    if c = newline ∨ c = cr then ([c], input)
    else ((c :: (getsLoop room input).1), (getsLoop room input).2)

/-- `gets`: the pointer that it returns is `buf`. -/
def gets (max : ℕ) (input : List Byte) : Option (List Byte) × List Byte :=
  (some (getsLoop (max - 1) input).1, (getsLoop (max - 1) input).2)

/-- Whether `trim` removes a character at the end. -/
def isTrimmed (c : Byte) : Bool := c = newline ∨ c = cr ∨ c = space ∨ c = tab

def trim (s : Str) : Str := s.rdropWhile isTrimmed

/-- The line that an iteration of the main loop looks at. -/
def lineOf (buf : List Byte) : Str := skipws (trim (buf.takeWhile (· ≠ 0)))

/-- An iteration of the main loop: what is left of the input, unless the loop ends. -/
def iteration (e : Env) (input : List Byte) : T (Option (List Byte)) :=
  match gets 256 input with
  | (none, _) => return none
  | (some buf, input) =>
    let line := lineOf buf
    if line = [] then return some input
    else if line.head?.any isDigit then do
      handleLineInput line
      return some input
    else if line = str "q!" then return none
    else if line = str "q" ∨ line = str "Q" then do
      if (← get).dirty then return some input else return none
    else do
      handleCommand e line
      return some input

/-- So many iterations of the main loop, from the `k`-th on. -/
def iterations (env : ℕ → Env) : ℕ → ℕ → List Byte → T (Option (List Byte))
  | _, 0, input => return some input
  | k, n + 1, input => do
    match ← iteration (env k) input with
    | none => return none
    | some input => iterations env (k + 1) n input

/-- The states that commands lead to. -/
inductive Reachable : Ed → Prop where
  | start : Reachable Ed.start
  | step {s s' : Ed} (e : Env) (input : List Byte) {r : Option (List Byte)} (h : Reachable s)
      (hstep : iteration e input s = .ok (r, s')) : Reachable s'

/-! ### The texts -/

/-- A text without a newline or a carriage return. -/
def Clean (t : Str) : Prop := newline ∉ t ∧ cr ∉ t

variable {t : Str}

theorem Clean.sublist {t' : Str} (h : Clean t) (hsub : t'.Sublist t) : Clean t' :=
  ⟨fun hmem => h.1 (hsub.subset hmem), fun hmem => h.2 (hsub.subset hmem)⟩

theorem Clean.editorCopy (h : Clean t) : Clean (editorCopy t) :=
  h.sublist ((take_sublist _ _).trans (takeWhile_sublist _))

theorem parseLoop_spec {n : ℕ} {any : Bool} {p : Str} {r : ℕ × Bool × Str} (hn : n < 2 ^ 31)
    (h : parseLoop n any p = some r) : r.1 < 2 ^ 31 ∧ r.2.2 <:+ p := by
  induction p generalizing n any with
  | nil =>
    cases h
    exact ⟨hn, suffix_rfl⟩
  | cons c p ih =>
    rw [parseLoop] at h
    split_ifs at h with hdigit hnext
    · exact (ih hnext h).imp_right fun hsuffix => hsuffix.trans (suffix_cons c p)
    · cases h
      exact ⟨hn, suffix_rfl⟩

theorem toInt_ofNat {v : ℕ} (hv : v < 2 ^ 31) : (BitVec.ofNat 32 v).toInt = v := by
  rw [BitVec.toInt_eq_toNat_cond, BitVec.toNat_ofNat, Nat.mod_eq_of_lt (by omega),
    if_pos (by omega)]

theorem parse_spec {r : Word × Bool × Str} (h : parseIntToken t = some r) :
    0 ≤ r.1.toInt ∧ r.2.2 <:+ t := by
  obtain ⟨r, hr, rfl⟩ := Option.map_eq_some_iff.mp h
  obtain ⟨hlt, hsuffix⟩ := parseLoop_spec (by decide) hr
  exact ⟨by rw [toInt_ofNat hlt]; omega, hsuffix⟩

theorem Clean.skipws (h : Clean t) : Clean (skipws t) :=
  h.sublist (dropWhile_sublist _)

theorem Clean.numbered {last : Word} {r : Word × Str × Word} (h : Clean t)
    (hr : numbered t last = some r) (hlast : 0 ≤ last.toInt) :
    Clean r.2.1 ∧ 0 ≤ r.1.toInt ∧ 0 ≤ r.2.2.toInt := by
  rw [Ted.numbered] at hr
  split at hr
  · cases hr
  · next hparse =>
    cases hr
    obtain ⟨hnum, hsuffix⟩ := parse_spec hparse
    exact ⟨(h.sublist hsuffix.sublist).skipws, hnum, hlast⟩
  · split_ifs at hr with hsmall
    cases hr
    have hsum : 0 ≤ (last + 10).toInt := by
      rw [BitVec.toInt_eq_toNat_cond] at hlast hsmall ⊢
      rw [BitVec.toNat_add]
      have h10 : (10 : Word).toNat = 10 := rfl
      have hlt := last.isLt
      split_ifs at hlast hsmall ⊢ <;> omega
    exact ⟨h, hsum, hsum⟩

theorem getsLoop_clean (room : ℕ) (input : List Byte) : ∃ a b, (getsLoop room input).1 = a ++ b ∧
    Clean a ∧ ∀ c ∈ b, isTrimmed c = true := by
  induction room generalizing input with
  | zero => exact ⟨[], [], rfl, ⟨List.not_mem_nil, not_mem_nil⟩, by simp⟩
  | succ room ih =>
    cases input with
    | nil => exact ⟨[], [], rfl, ⟨List.not_mem_nil, not_mem_nil⟩, by simp⟩
    | cons c input =>
      rw [getsLoop]
      split_ifs with hc
      · refine ⟨[], [c], rfl, ⟨List.not_mem_nil, not_mem_nil⟩, fun c' hc' => ?_⟩
        obtain rfl := mem_singleton.mp hc'
        rcases hc with rfl | rfl <;> rfl
      · obtain ⟨a, b, hab, ha, hb⟩ := ih input
        rw [not_or] at hc
        refine ⟨c :: a, b, congrArg (c :: ·) hab, ⟨?_, ?_⟩, hb⟩
        · exact fun hmem => (mem_cons.mp hmem).elim (fun h => hc.1 h.symm) ha.1
        · exact fun hmem => (mem_cons.mp hmem).elim (fun h => hc.2 h.symm) ha.2

theorem trim_append {a b : Str} (hb : ∀ c ∈ b, isTrimmed c = true) : trim (a ++ b) = trim a := by
  induction b using reverseRecOn with
  | nil => rw [append_nil]
  | append_singleton b c ih =>
    rw [← append_assoc, trim, rdropWhile_concat_pos _ _ _ (hb c (by simp)), ← trim,
      ih fun c h => hb c (mem_append_left _ h)]

theorem lineOf_clean (room : ℕ) (input : List Byte) : Clean (lineOf (getsLoop room input).1) := by
  obtain ⟨a, b, hab, ha, hb⟩ := getsLoop_clean room input
  rw [lineOf, hab, takeWhile_append]
  refine Clean.skipws ?_
  split_ifs
  · rw [trim_append fun c h => hb c ((takeWhile_sublist _).subset h)]
    exact ha.sublist ( rdropWhile_prefix _ _).sublist
  · exact ha.sublist (( rdropWhile_prefix _ _).sublist.trans (takeWhile_sublist _))

/-- A line with a number that is not negative and a clean text. -/
def Line.Tidy (l : Line) : Prop := Clean l.text ∧ 0 ≤ l.key

structure Ed.Tidy (s : Ed) : Prop extends s.Sound where
  tidy : ∀ l ∈ s.lines, l.Tidy

variable {E : Fault → Prop} {s : Ed}

theorem mem_putLine {ls : List Line} (h : Sorted Line.key ls) {number : Word} {text : Str}
    {l : Line}
    (hl : l ∈ putLine number text ls) : l = mkLine number text ∨ l ∈ ls := by
  rw [putLine] at hl
  split_ifs at hl
  · exact .inr hl
  · exact (h.mem_put.mp hl).imp_right And.left

theorem tidy_putLine {ls : List Line} (h : Sorted Line.key ls) (hls : ∀ l ∈ ls, l.Tidy)
    {number : Word} {text : Str} (ht : Clean text) (hnum : 0 ≤ number.toInt) {l : Line}
    (hl : l ∈ putLine number text ls) : l.Tidy := by
  rcases mem_putLine h hl with rfl | hl
  · exact ⟨ht.editorCopy, hnum⟩
  · exact hls l hl

theorem tidy_loadedLoop {bytes linebuf : List Byte} {last : Word} {ls : List Line}
    {r : List Line × List Byte × Word} (h : Sorted Line.key ls) (hls : ∀ l ∈ ls, l.Tidy)
    (hbuf : Clean linebuf) (hlast : 0 ≤ last.toInt)
    (hr : loadedLoop bytes linebuf last ls = some r) :
    (∀ l ∈ r.1, l.Tidy) ∧ Clean r.2.1 ∧ 0 ≤ r.2.2.toInt := by
  induction bytes generalizing linebuf last ls with
  | nil =>
    cases hr
    exact ⟨hls, hbuf, hlast⟩
  | cons ch bytes ih =>
    rw [loadedLoop] at hr
    split_ifs at hr with hcr hnl
    · exact ih h hls hbuf hlast hr
    · obtain ⟨line, hline, hr⟩ := Option.bind_eq_some_iff.mp hr
      obtain ⟨hclean, hnum, hnext⟩ := (hbuf.sublist (takeWhile_sublist _)).numbered hline hlast
      refine ih (sorted_putLine h _ _) (fun l hl => tidy_putLine h hls hclean hnum hl)
        ⟨List.not_mem_nil, not_mem_nil⟩ ?_ hr
      rw [nextLast]
      split_ifs
      · exact hnum
      · exact hnext
    · refine ih h hls ⟨?_, ?_⟩ hlast hr <;> rw [mem_append, mem_singleton]
      · exact fun hmem => hmem.elim hbuf.1 fun heq => hnl heq.symm
      · exact fun hmem => hmem.elim hbuf.2 fun heq => hcr heq.symm
    · exact ih h hls hbuf hlast hr

theorem tidy_loaded {bytes : List Byte} {ls : List Line} (h : loaded bytes = some ls) :
    ∀ l ∈ ls, l.Tidy := by
  obtain ⟨r, hr, h⟩ := Option.bind_eq_some_iff.mp h
  obtain ⟨htidy, hclean, hlast⟩ := tidy_loadedLoop List.Pairwise.nil (by simp)
    ⟨List.not_mem_nil, not_mem_nil⟩ (by decide) hr
  split_ifs at h
  · obtain ⟨line, hline, rfl⟩ := Option.map_eq_some_iff.mp h
    obtain ⟨hclean, hnum, -⟩ := (hclean.sublist (takeWhile_sublist _)).numbered hline hlast
    exact fun l hl => tidy_putLine (sorted_loadedLoop List.Pairwise.nil hr) htidy hclean hnum hl
  · cases h
    exact htidy

/-! ### Steps -/

theorem wp_delete_tidy (hs : s.Tidy) (number : Word) (markDirty : Bool) :
    Wp E (deleteLineNumber number markDirty) (fun _ s' => s'.Tidy) s := by
  refine (wp_deleteLineNumber hs.fits number markDirty).mono fun _ s' h => ?_
  refine ⟨⟨h.2.fits, h.2.lines ▸ hs.sorted.del _⟩, fun l hl => ?_⟩
  rw [h.2.lines, hs.sorted.mem_del] at hl
  exact hs.tidy l hl.1

section

variable (hE : E .overflow)

include hE

theorem wp_handleLineInput (hs : s.Tidy) {line : Str} (hline : Clean line) :
    Wp E (handleLineInput line) (fun _ s' => s'.Tidy) s := by
  rw [handleLineInput, wp_bind]
  refine wp_orOverflow (fun _ => hE) fun r hr => ?_
  obtain ⟨hnum, hsuffix⟩ := parse_spec hr
  dsimp only
  split_ifs
  · exact hs
  · exact wp_delete_tidy hs _ true
  · refine (wp_upsertLine_eq hs.fits _ _ true).mono fun _ s' h => ?_
    refine ⟨⟨h.1, h.2.1 ▸ sorted_putLine hs.sorted _ _⟩, fun l hl => ?_⟩
    rw [h.2.1] at hl
    exact tidy_putLine hs.sorted hs.tidy (hline.sublist hsuffix.sublist).skipws hnum hl

theorem wp_load_tidy (contents : Option (List Byte)) (name : Str) :
    Wp E (loadFile contents name) (fun _ s' => s'.Tidy) s := by
  refine (wp_loadFile contents name fun _ => hE).mono fun _ s' h => ?_
  cases contents with
  | none =>
    have hnil : [] = s'.lines := Option.some.inj h.2.1
    exact ⟨⟨h.1, hnil ▸ List.Pairwise.nil⟩, by simp [← hnil]⟩
  | some bytes => exact ⟨⟨h.1, sorted_loaded h.2.1⟩, tidy_loaded h.2.1⟩

theorem wp_listCommand (hs : s.Tidy) (args : Str) :
    Wp E (listCommand args) (fun _ s' => s'.Tidy) s := by
  rw [listCommand]
  split_ifs
  · exact hs
  · rw [wp_bind]
    refine wp_orOverflow (fun _ => hE) fun r _ => ?_
    dsimp only
    split_ifs
    · exact hs
    · rw [wp_bind]
      exact wp_orOverflow (fun _ => hE) fun _ _ => hs

omit hE in
theorem wp_saved_tidy (hs : s.Tidy) (e : Env) (name : Str) :
    Wp E (saved e name) (fun _ s' => s'.Tidy) s := by
  rw [saved]
  split_ifs
  · exact ⟨⟨hs.fits, hs.sorted⟩, hs.tidy⟩
  · exact hs

theorem wp_handleCommand (hs : s.Tidy) (e : Env) (line : Str) :
    Wp E (handleCommand e line) (fun _ s' => s'.Tidy) s := by
  rw [handleCommand]
  dsimp only
  split_ifs
  -- `HELP`, `LIST`, `DELETE`
  · exact hs
  · exact wp_listCommand hE hs _
  · rw [wp_bind]
    refine wp_orOverflow (fun _ => hE) fun r _ => ?_
    split_ifs
    · exact wp_delete_tidy hs _ true
    · exact hs
  -- `NEW`, `OPEN` without and with a name
  · exact ⟨⟨Nat.zero_le _, List.Pairwise.nil⟩, fun l hl => absurd hl not_mem_nil⟩
  · exact hs
  · exact wp_load_tidy hE _ _
  -- `WRITE` without and with a name
  · rw [wp_bind, wp_get]
    split_ifs
    · exact hs
    · exact wp_saved_tidy hs e _
  · rw [wp_bind, wp_get]
    exact wp_saved_tidy hs e _
  · exact hs

/-- One iteration of the main loop keeps the buffer in order. -/
theorem wp_iteration (hs : s.Tidy) (e : Env) (input : List Byte) :
    Wp E (iteration e input) (fun _ s' => s'.Tidy) s := by
  rw [iteration, gets]
  dsimp only
  split_ifs
  · exact hs
  · rw [wp_bind]
    exact (wp_handleLineInput hE hs (lineOf_clean 255 input)).mono fun _ s' h => h
  · exact hs
  · rw [wp_bind, wp_get]
    split_ifs <;> exact hs
  · rw [wp_bind]
    exact (wp_handleCommand hE hs e _).mono fun _ s' h => h

end

theorem Reachable.tidy (h : Reachable s) : s.Tidy := by
  induction h with
  | start => exact ⟨Ed.sound_start, fun l hl => absurd hl not_mem_nil⟩
  | step e input h hstep ih =>
    exact (wp_iteration (E := fun _ => True) trivial ih e input).of_ok hstep

/-! ### What a line with a number means -/

/-- What a line with digits for `v` and a text means for the lines of the buffer: line `v` is set to
the text, cut to 159 characters, if `v` is positive and fits an `int`, there is a text, and line `v`
exists or there is room; it is removed if there is no text; and nothing else changes. -/
structure Ed.Entered (s : Ed) (v : ℕ) (t : Str) (s' : Ed) : Prop where
  set : 1 ≤ v → v < 2 ^ 31 → t ≠ [] → (∃ l ∈ s.lines, l.key = v) ∨ s.lineCount < maxLines →
    ∀ l, l ∈ s'.lines ↔ l.key = v ∧ l.text = t.take (maxCols - 1) ∨ l ∈ s.lines ∧ l.key ≠ v
  removed : 1 ≤ v → v < 2 ^ 31 → t = [] → ∀ l, l ∈ s'.lines ↔ l ∈ s.lines ∧ l.key ≠ v
  kept : ¬ (1 ≤ v ∧ v < 2 ^ 31 ∧
    (t = [] ∨ (∃ l ∈ s.lines, l.key = v) ∨ s.lineCount < maxLines)) → s'.lines = s.lines

section Save

variable {rest linebuf : List Byte} {last : Word} {ls : List Line} {l : Line}

theorem loadedLoop_append {x : List Byte} (hx : Clean x) (hlen : linebuf.length ≤ maxCols - 1) :
    loadedLoop (x ++ rest) linebuf last ls =
      loadedLoop rest ((linebuf ++ x).take (maxCols - 1)) last ls := by
  induction x generalizing linebuf with
  | nil => rw [nil_append, append_nil, take_of_length_le hlen]
  | cons c x ih =>
    have hcr : c ≠ cr := fun h => hx.2 (h ▸ mem_cons_self)
    have hnl : c ≠ newline := fun h => hx.1 (h ▸ mem_cons_self)
    have hx := hx.sublist (sublist_cons_self c x)
    rw [cons_append, loadedLoop, if_neg hcr, if_neg hnl]
    split_ifs with hroom
    · rw [ih hx (by rw [length_append, length_singleton]; omega), append_assoc, singleton_append]
    · rw [ih hx hlen, take_append_of_le_length (by omega), take_append_of_le_length (by omega)]

theorem mkLine_self (l : Line) : mkLine l.number l.text = l := by
  have hcopy : editorCopy l.text = l.text := by
    have := l.length_lt
    rw [editorCopy, takeWhile_ne_zero l.ne_zero, take_of_length_le (by omega)]
  cases l with
  | mk number text hz hlt => rw [mkLine, Line.mk.injEq]; exact ⟨rfl, hcopy⟩

/-- What `load_file` makes of a line that `save_file` has written. -/
def reload (l : Line) : Line :=
  mkLine l.number (skipws (l.text.take (maxCols - 2 - (decimal l.key).length)))

/-- A line that `load_file` reads as it was written. -/
structure Line.Plain (l : Line) : Prop where
  blank : ∀ c ∈ l.text.head?, isBlank c = false
  fits : (decimal l.key).length + 1 + l.text.length < maxCols

theorem length_decimal_key (hl : 0 ≤ l.key) : (decimal l.key).length ≤ 10 := by
  have hlt : l.key < 2 ^ 31 := by
    have := BitVec.toInt_lt (x := l.number)
    simpa using this
  rw [decimal, if_neg (not_lt.mpr hl), nil_append, length_map]
  exact Nat.toDigitsCore_length 10 _ _ 10 (by decide) (by omega)

theorem loadedLoop_line (hl : l.Tidy) (hbelow : ∀ x ∈ ls, x.key < l.key)
    (hroom : ls.length < maxLines) : ∃ last',
    loadedLoop (written [l] ++ rest) [] last ls = loadedLoop rest [] last' (ls ++ [reload l]) := by
  have hlt : l.key < 2 ^ 31 := by
    have := BitVec.toInt_lt (x := l.number)
    simpa using this
  obtain ⟨n, hn⟩ := Int.eq_ofNat_of_zero_le hl.2
  have hdigits := decimal_digits n
  have hshort := length_decimal_key hl.2
  rw [hn] at hshort
  have hwritten : written [l] ++ rest = (decimal n ++ (space :: l.text)) ++ newline :: rest := by
    rw [written, flatMap_singleton, numbuf_eq hl.2 hlt, hn]
    simp
  have hnot {x : Byte} (hx : isDigit x = false) (hx' : x ≠ space) (ht : x ∉ l.text) :
      x ∉ decimal n ++ space :: l.text := by
    rw [mem_append, mem_cons, not_or, not_or]
    exact ⟨fun hmem => Bool.false_ne_true (hx.symm.trans (hdigits.2 x hmem)), hx', ht⟩
  have hcleanAll : Clean (decimal n ++ space :: l.text) :=
    ⟨hnot (by decide) (by decide) hl.1.1, hnot (by decide) (by decide) hl.1.2⟩
  have hnul := hnot (by decide) (by decide) l.ne_zero
  have hnum : BitVec.ofNat 32 n = l.number := by
    refine BitVec.toInt_inj.mp ?_
    rw [toInt_ofNat (by omega), ← hn]
  -- the number is not cut off
  have hcut : (decimal n ++ space :: l.text).take (maxCols - 1) =
      decimal n ++ space :: l.text.take (maxCols - 2 - (decimal n).length) := by
    have hsub : maxCols - 1 - (decimal n).length = maxCols - 2 - (decimal n).length + 1 := by
      have hmax : maxCols = 160 := rfl
      omega
    rw [take_append, take_of_length_le (hshort.trans (by decide)), hsub, take_succ_cons]
  have hput (text : Str) : putLine l.number text ls = ls ++ [mkLine l.number text] := by
    have hsplit : Split Line.key (mkLine l.number text).key ls ls [] :=
      ⟨hbelow, by simp, .inl (append_nil ls).symm⟩
    rw [putLine, if_neg (by omega), hsplit.put_eq]
  have hparse (text : Str) : parseIntToken (decimal n ++ space :: text) =
      some (l.number, true, space :: text) := by
    have hspace : NoDigit (space :: text) := fun c hc => Option.some.inj hc ▸ rfl
    rw [parse_digits hdigits.2 hdigits.1 hspace, value_decimal, if_pos (by omega), hnum]
  have hskip (text : Str) : skipws (space :: text) = skipws text :=
    dropWhile_cons_of_pos (by decide)
  refine ⟨nextLast l.number last, ?_⟩
  rw [hwritten, loadedLoop_append hcleanAll (by simp), nil_append, loadedLoop, if_neg (by decide),
    if_pos rfl, takeWhile_ne_zero fun hmem => hnul (mem_of_mem_take hmem), hcut, numbered, hparse,
    reload, hn]
  dsimp only
  rw [Option.bind_some, hskip, hput]

/-- Lines that have been written are loaded again one by one. -/
theorem loadedLoop_written {ls' : List Line} (hl : ∀ l ∈ ls', l.Tidy)
    (hsorted : Sorted Line.key (ls ++ ls')) (hroom : (ls ++ ls').length ≤ maxLines) : ∃ last',
    loadedLoop (written ls') [] last ls = some (ls ++ ls'.map reload, [], last') := by
  induction ls' generalizing ls last with
  | nil => exact ⟨last, by rw [map_nil, append_nil]; rfl⟩
  | cons l ls' ih =>
    have hwritten : written (l :: ls') = written [l] ++ written ls' := by
      rw [written, written, written, ← flatMap_append, singleton_append]
    have hbelow (x : Line) (hx : x ∈ ls) : x.key < l.key :=
      (pairwise_append.mp hsorted).2.2 x hx l mem_cons_self
    rw [length_append, length_cons] at hroom
    obtain ⟨last₁, hfirst⟩ : ∃ last₁, loadedLoop (written [l] ++ written ls') [] last ls =
        loadedLoop (written ls') [] last₁ (ls ++ [reload l]) :=
      loadedLoop_line (hl l mem_cons_self) hbelow (by omega)
    rw [hwritten, hfirst, map_cons, append_cons ls (reload l) (ls'.map reload)]
    refine ih (fun l h => hl l (mem_cons_of_mem _ h)) ?_ ?_
    · -- the line that is read has the number of the line
      have hkeys : ((ls ++ [reload l] ++ ls').map Line.key) = (ls ++ l :: ls').map Line.key := by
        simp [reload, mkLine, Line.key]
      rw [Sorted, ← pairwise_map, hkeys, pairwise_map]
      exact hsorted
    · rw [length_append, length_append, length_singleton]
      omega

theorem reload_eq_iff (hl : l.Tidy) : reload l = l ↔ l.Plain := by
  have hskip (t : Str) : skipws t = t ↔ ∀ c ∈ t.head?, isBlank c = false := by
    cases t with
    | nil => simp [skipws]
    | cons c t =>
      rw [skipws, dropWhile_eq_self_iff]
      simp
  have hmax : maxCols = 160 := rfl
  have htext : (reload l).text = skipws (l.text.take (maxCols - 2 - (decimal l.key).length)) := by
    have hsub : (skipws (l.text.take (maxCols - 2 - (decimal l.key).length))).Sublist l.text :=
      (dropWhile_sublist _).trans (take_sublist _ _)
    have hlen := hsub.length_le.trans_lt l.length_lt
    exact (congrArg Line.text (mkLine_self ⟨l.number, _, fun h => l.ne_zero (hsub.subset h), hlen⟩))
  constructor
  · intro h
    rw [h] at htext
    have hle := (dropWhile_sublist isBlank (l := l.text.take _)).length_le.trans
      (length_take_le (maxCols - 2 - (decimal l.key).length) l.text)
    rw [← skipws, ← htext] at hle
    rw [take_of_length_le hle] at htext
    have hdec := length_decimal_key hl.2
    exact ⟨(hskip _).mp htext.symm, by omega⟩
  · intro h
    have hfits := h.fits
    rw [take_of_length_le (by omega), (hskip _).mpr h.blank] at htext
    cases hr : reload l with
    | mk number text hz hlt =>
      have hnumber : number = l.number := congrArg Line.number hr.symm
      have htext' : text = l.text := (congrArg Line.text hr).symm.trans htext
      cases l
      simp_all

/-- What has been saved is loaded again exactly if no text begins with a blank and each line fits
into `linebuf` together with its number. -/
theorem load_after_save (hs : Reachable s) :
    loaded (written s.lines) = some s.lines ↔ ∀ l ∈ s.lines, l.Plain := by
  have hs := hs.tidy
  obtain ⟨last, hload⟩ : ∃ last, loadedLoop (written s.lines) [] 0 [] =
      some ([] ++ s.lines.map reload, [], last) := by
    refine loadedLoop_written hs.tidy hs.sorted ?_
    rw [nil_append, Ed.length_lines]
    exact hs.fits
  have hloaded : loaded (written s.lines) = some (s.lines.map reload) := by
    rw [loaded, hload]
    rfl
  have hself : s.lines.map reload = s.lines ↔ ∀ l ∈ s.lines, reload l = l := by
    simpa using map_inj_left (l := s.lines) (f := reload) (g := id)
  rw [hloaded, Option.some.injEq, hself]
  exact forall₂_congr fun l hl => reload_eq_iff (hs.tidy l hl)

/-- The file with the line `x`, which has no number and begins with a blank. -/
def blankFile : Env := ⟨fun _ => some [32, 120, 10], fun _ => false⟩

/-- The line gets the number 10 and is saved as `10  x`, and then loaded without the blank. -/
theorem save_loses_blank : ∃ s, Reachable s ∧ s.lines.map (fun l => (l.key, l.text)) =
    [(10, [32, 120])] ∧ (loaded (written s.lines)).map (·.map fun l => (l.key, l.text)) =
      some [(10, [120])] := by
  have hrun : (iteration blankFile (str "OPEN f\n") Ed.start).toOption.map (fun r =>
      (r.2.lines.map fun l => (l.key, l.text),
        (loaded (written r.2.lines)).map (·.map fun l => (l.key, l.text)))) =
      some ([(10, [32, 120])], some [(10, [120])]) := by decide +kernel
  cases hit : iteration blankFile (str "OPEN f\n") Ed.start with
  | error e =>
    rw [hit] at hrun
    cases hrun
  | ok r =>
    rw [hit] at hrun
    obtain ⟨hlines, hloaded⟩ := Prod.mk.inj (Option.some.inj hrun)
    exact ⟨r.2, .step blankFile (str "OPEN f\n") .start hit, hlines, hloaded⟩

/-- The line `12 ab` is saved and loaded. -/
theorem load_after_save_line : ∃ s, Reachable s ∧ s.lines.map (fun l => (l.key, l.text)) =
    [(12, [97, 98])] ∧ loaded (written s.lines) = some s.lines := by
  have hrun : (iteration blankFile (str "12 ab\n") Ed.start).toOption.map (fun r =>
      r.2.lines.map fun l => (l.key, l.text)) = some [(12, [97, 98])] := by decide +kernel
  cases hit : iteration blankFile (str "12 ab\n") Ed.start with
  | error e =>
    rw [hit] at hrun
    cases hrun
  | ok r =>
    rw [hit] at hrun
    have hlines : r.2.lines.map (fun l => (l.key, l.text)) = [(12, [97, 98])] :=
      Option.some.inj hrun
    have hreach : Reachable r.2 := .step blankFile (str "12 ab\n") .start hit
    refine ⟨r.2, hreach, hlines, (load_after_save hreach).mpr fun l hl => ?_⟩
    have hmem : (l.key, l.text) ∈ [((12 : ℤ), ([97, 98] : Str))] := by
      rw [← hlines]
      exact mem_map_of_mem hl
    obtain ⟨hkey, htext⟩ := Prod.mk.inj (mem_singleton.mp hmem)
    exact ⟨by rw [htext]; decide, by rw [hkey, htext]; decide⟩

end Save

/-! ### The end of the input -/

/-- A line that ends the main loop: `q!`, or `q` or `Q` when nothing has been changed. -/
def Ed.Quits (s : Ed) (line : Str) : Prop :=
  line = str "q!" ∨ (line = str "q" ∨ line = str "Q") ∧ s.dirty = false

theorem gets_eq (input : List Byte) :
    gets 256 input = (some (getsLoop 255 input).1, (getsLoop 255 input).2) := rfl

theorem Ed.Quits.iteration {input : List Byte} (h : s.Quits (lineOf (getsLoop 255 input).1))
    (e : Env) : iteration e input s = .ok (none, s) := by
  rw [Ted.iteration, gets_eq]
  rcases h with h | ⟨h | h, hclean⟩
  · simp only [h]
    rfl
  all_goals
    simp only [h]
    obtain ⟨buffer, lineCount, dirty, currentFile⟩ := s
    cases hclean
    rfl

theorem wp_quits (e : Env) (input : List Byte) :
    Wp (fun _ => True) (iteration e input)
      (fun r _ => r = none → s.Quits (lineOf (getsLoop 255 input).1)) s := by
  have hgo (m : T Unit) (rest : List Byte) {Q : Prop} :
      Wp (fun _ => True) m (fun _ _ => some rest = none → Q) s :=
    (Wp.of_true m s).mono fun _ _ _ h => absurd h (Option.some_ne_none rest)
  rw [iteration, gets_eq]
  dsimp only
  split_ifs with hnil hdigit hforce hquit
  · exact fun h => absurd h (Option.some_ne_none _)
  · rw [wp_bind]
    exact hgo _ _
  · exact fun _ => .inl hforce
  · rw [wp_bind, wp_get]
    split_ifs with hdirty
    · exact fun h => absurd h (Option.some_ne_none _)
    · exact fun _ => .inr ⟨hquit, by simpa using hdirty⟩
  · rw [wp_bind]
    exact hgo _ _

theorem iterations_succ (env : ℕ → Env) (k n : ℕ) (input : List Byte) (s : Ed) :
    iterations env k (n + 1) input s = (iteration (env k) input s).bind fun r =>
      r.1.elim (.ok (none, r.2)) fun rest => iterations env (k + 1) n rest r.2 := by
  rw [iterations]
  simp only [bind, StateT.bind]
  congr
  funext r
  cases r.1 <;> rfl

/-- The main loop ends exactly if some iteration reads `q!`, or `q` or `Q` when nothing has been
changed. -/
theorem main_ends (s : Ed) (env : ℕ → Env) (input : List Byte) :
    (∃ n s', iterations env 0 n input s = .ok (none, s')) ↔
      ∃ n rest s', iterations env 0 n input s = .ok (some rest, s') ∧
        s'.Quits (lineOf (getsLoop 255 rest).1) := by
  suffices hgen : ∀ k, (∃ n s', iterations env k n input s = .ok (none, s')) ↔
      ∃ n rest s', iterations env k n input s = .ok (some rest, s') ∧
        s'.Quits (lineOf (getsLoop 255 rest).1) from hgen 0
  intro k
  constructor
  · rintro ⟨n, s', h⟩
    induction n generalizing k input s with
    | zero => cases h
    | succ n ih =>
      cases hit : iteration (env k) input s with
      | error e =>
        rw [iterations_succ, hit] at h
        cases h
      | ok r =>
        obtain ⟨o, s₁⟩ := r
        rw [iterations_succ, hit] at h
        cases o with
        | none => exact ⟨0, input, s, rfl, (wp_quits (env k) input).of_ok hit rfl⟩
        | some rest =>
          obtain ⟨m, rest', s₂, hrun, hquits⟩ := ih s₁ rest (k + 1) h
          exact ⟨m + 1, rest', s₂, by rw [iterations_succ, hit]; exact hrun, hquits⟩
  · rintro ⟨n, rest, s', h, hquits⟩
    induction n generalizing k input s with
    | zero =>
      cases h
      exact ⟨1, s', by rw [iterations_succ, hquits.iteration (env k)]; rfl⟩
    | succ n ih =>
      cases hit : iteration (env k) input s with
      | error e =>
        rw [iterations_succ, hit] at h
        cases h
      | ok r =>
        obtain ⟨o, s₁⟩ := r
        rw [iterations_succ, hit] at h
        cases o with
        | none => cases h
        | some rest₁ =>
          obtain ⟨m, s₂, hrun⟩ := ih s₁ rest₁ (k + 1) h
          exact ⟨m + 1, s₂, by rw [iterations_succ, hit]; exact hrun⟩

/-- No files. -/
def noFiles : Env := ⟨fun _ => none, fun _ => false⟩

/-- A line and the command `q!`. -/
theorem main_ends_quit : ∃ n s',
    iterations (fun _ => noFiles) 0 n [49, 32, 97, 10, 113, 33, 10] Ed.start = .ok (none, s') :=
  (main_ends _ _ _).mpr ⟨1, _, _, rfl, .inl (by decide)⟩

theorem iterations_nil (k n : ℕ) :
    iterations (fun _ => noFiles) k n [] Ed.start = .ok (some [], Ed.start) := by
  induction n generalizing k with
  | zero => rfl
  | succ n ih => exact ih (k + 1)

/-- Without any input the main loop does not end. -/
theorem main_never_ends : ¬ ∃ n s',
    iterations (fun _ => noFiles) 0 n [] Ed.start = .ok (none, s') := by
  rintro ⟨n, s', h⟩
  rw [iterations_nil] at h
  cases h

end Dave.Ted
