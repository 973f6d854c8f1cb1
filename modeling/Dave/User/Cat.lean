import Dave.Fs.Dir
import Mathlib.Data.List.TakeWhile

/-!
# `cat --json`

With the flag `--json`, `cat` emits one record for each line of its input. It collects the bytes of
a line in a buffer while it reads pieces of any length. When the buffer is full it emits a record
and goes on, but it has then forgotten the byte that did not fit.
-/

namespace Dave.Cat

open List

open Fs (Str)

abbrev newline : Byte := 10

abbrev bufSize : ℕ := 512

abbrev linebufSize : ℕ := 1024

/-- The fields of a record, before they are escaped. -/
structure Record where
  source : Str
  data : Str
deriving DecidableEq

/-- The records that have been emitted, and the first `m` bytes of `linebuf`. -/
structure State where
  out : List Record
  line : List Byte
deriving DecidableEq

/-- `emit_line`, of the string in `linebuf`: it ends before the first NUL. -/
def emitLine (source : Str) (s : State) : State :=
  ⟨s.out ++ [⟨source, s.line.takeWhile (· ≠ 0)⟩], []⟩

/-- What `cat_json` does with a byte. -/
def step (source : Str) (s : State) (c : Byte) : State :=
  if c = newline then emitLine source s
  else if s.line.length < linebufSize - 1 then { s with line := s.line ++ [c] }
  else emitLine source s

/-- What `read` puts into `buf`. -/
abbrev Piece : Type := { bs : List Byte // 0 < bs.length ∧ bs.length ≤ bufSize }

/-- `cat_json`, where `read` returns these pieces and then `n`, which is 0 at the end of the file
and negative if there was an error: the records, and whether the message is printed. -/
def catJson (source : Str) (pieces : List Piece) (n : ℤ) : List Record × Bool :=
  let s := pieces.foldl (fun s p => p.val.foldl (step source) s) ⟨[], []⟩
  let s := if 0 < s.line.length then emitLine source s else s
  (s.out, decide (n < 0))

def input (pieces : List Piece) : List Byte := pieces.flatMap Subtype.val

/-- The data of the records, one after the other. -/
def data (out : List Record) : List Byte := out.flatMap Record.data

variable {source : Str} {s : State} {u v bs : List Byte} {pieces : List Piece} {n : ℤ}

/-! ### Pieces -/

def run (source : Str) (s : State) (bs : List Byte) : State := bs.foldl (step source) s

def flush (source : Str) (s : State) : List Record :=
  if 0 < s.line.length then (emitLine source s).out else s.out

theorem catJson_eq (source : Str) (pieces : List Piece) (n : ℤ) : catJson source pieces n =
      (flush source (run source ⟨[], []⟩ (input pieces)), decide (n < 0)) := by
  have hrun (s : State) : pieces.foldl (fun s p => p.val.foldl (step source) s) s =
      run source s (input pieces) := by
    rw [run, input, foldl_flatMap]
  rw [catJson, hrun, flush]
  split_ifs <;> rfl

/-! ### Lines -/

theorem run_out (out : List Record) (line : List Byte) : run source ⟨out, line⟩ bs =
      ⟨out ++ (run source ⟨[], line⟩ bs).out, (run source ⟨[], line⟩ bs).line⟩ := by
  induction bs generalizing out line with
  | nil => simp [run]
  | cons c bs ih =>
    have hstep : step source ⟨out, line⟩ c =
        ⟨out ++ (step source ⟨[], line⟩ c).out, (step source ⟨[], line⟩ c).line⟩ := by
      simp only [step, emitLine]
      split_ifs <;> simp
    have hcons (s : State) : run source s (c :: bs) = run source (step source s c) bs := rfl
    rw [hcons, hcons, hstep, ih, ih (step source ⟨[], line⟩ c).out, append_assoc]

theorem flush_append (out : List Record) :
    flush source ⟨out ++ s.out, s.line⟩ = out ++ flush source s := by
  rw [flush, flush]
  split_ifs
  · exact append_assoc ..
  · rfl

/-- After the bytes `u` of the input, all of them are in the records or in the buffer, which has the
last of them. -/
structure Kept (u : List Byte) (s : State) : Prop where
  suffix : s.line <:+ u
  line : newline ∉ s.line
  data : data s.out ++ s.line = u.filter (· ≠ newline)

theorem data_emitLine (h : 0 ∉ s.line) : data (emitLine source s).out = data s.out ++ s.line := by
  have hall : s.line.takeWhile (· ≠ 0) = s.line := by
    refine takeWhile_eq_self_iff.mpr fun b hb => decide_eq_true fun hb0 => h (hb0 ▸ hb)
  rw [emitLine, data, flatMap_append, flatMap_singleton, hall]
  rfl

theorem Kept.flush (h : Kept u s) (hnul : 0 ∉ u) :
    Cat.data (Cat.flush source s) = u.filter (· ≠ newline) := by
  rw [Cat.flush]
  split_ifs with hlen
  · rw [data_emitLine fun hmem => hnul (h.suffix.subset hmem), h.data]
  · have hnil : s.line = [] := eq_nil_of_length_eq_zero (by omega)
    rw [← h.data, hnil, append_nil]

theorem Kept.step {c : Byte} (h : Kept u s) (hnul : 0 ∉ u)
    (hfit : c ≠ newline → s.line.length < linebufSize - 1) :
    Kept (u ++ [c]) (Cat.step source s c) := by
  rw [Cat.step]
  split_ifs with hc hlt
  · refine ⟨List.nil_suffix, not_mem_nil, ?_⟩
    rw [data_emitLine fun hmem => hnul (h.suffix.subset hmem), h.data, filter_append, hc]
    simp [emitLine]
  · refine ⟨?_, ?_, ?_⟩
    · obtain ⟨w, hw⟩ := h.suffix
      exact ⟨w, by rw [← hw, append_assoc]⟩
    · rw [mem_append, mem_singleton]
      exact fun hmem => hmem.elim h.line fun heq => hc heq.symm
    · have hdata := h.data
      rw [← append_assoc, hdata, filter_append, filter_cons_of_pos (by simpa using hc), filter_nil]
  · exact absurd (hfit hc) hlt

theorem Kept.run (h : Kept u s) (hnul : 0 ∉ u ++ bs)
    (hshort : ∀ l, l <:+: u ++ bs → newline ∉ l → l.length < linebufSize) :
    Kept (u ++ bs) (run source s bs) := by
  induction bs generalizing u s with
  | nil => rwa [append_nil]
  | cons c bs ih =>
    have hassoc : u ++ c :: bs = u ++ [c] ++ bs := by
      rw [append_assoc, singleton_append]
    rw [hassoc] at hnul hshort ⊢
    have hu : 0 ∉ u := fun hmem =>
      hnul (mem_append_left _ (mem_append_left _ hmem))
    refine ih (h.step hu fun hc => ?_) hnul hshort
    -- the line with this byte is part of the input
    obtain ⟨w, hw⟩ := h.suffix
    have hlen := hshort (s.line ++ [c]) ⟨w, bs, by rw [← append_assoc, hw]⟩ (by
      rw [mem_append, mem_singleton]
      exact fun hmem => hmem.elim h.line fun heq => hc heq.symm)
    rw [length_append, length_singleton] at hlen
    omega

theorem kept_nil : Kept [] ⟨[], []⟩ := ⟨List.nil_suffix, not_mem_nil, rfl⟩

/-! ### Long lines -/

theorem run_of_short (source : Str) (hnl : newline ∉ bs)
    (hlen : s.line.length + bs.length < linebufSize) :
    run source s bs = { s with line := s.line ++ bs } := by
  induction bs generalizing s with
  | nil => simp [run]
  | cons c bs ih =>
    rw [length_cons] at hlen
    have hc : c ≠ newline := fun hc => hnl (hc ▸ mem_cons_self)
    have hstep : step source s c = { s with line := s.line ++ [c] } := by
      rw [step, if_neg hc, if_pos (by omega)]
    have hrest := ih (s := { s with line := s.line ++ [c] })
      (fun hmem => hnl (mem_cons_of_mem _ hmem))
      (by rw [length_append, length_singleton]; omega)
    rw [append_assoc, singleton_append] at hrest
    rw [← hrest, ← hstep]
    rfl

/-- The number of bytes in the records and in the buffer. -/
def stored (s : State) : ℕ := (data s.out).length + s.line.length

theorem stored_emitLine (source : Str) (s : State) : stored (emitLine source s) ≤ stored s := by
  have hle := (takeWhile_sublist (· ≠ 0) (l := s.line)).length_le
  simpa [stored, emitLine, data] using hle

theorem stored_run (source : Str) (s : State) (bs : List Byte) :
    stored (run source s bs) ≤ stored s + (bs.filter (· ≠ newline)).length := by
  induction bs generalizing s with
  | nil => exact le_rfl
  | cons c bs ih =>
    have hemit := stored_emitLine source s
    have hrest := ih (step source s c)
    rw [show run source s (c :: bs) = run source (step source s c) bs from rfl]
    refine hrest.trans ?_
    rw [step, filter_cons]
    split_ifs with hc hlt hlt <;> simp_all [stored] <;> omega

theorem line_run_lt (h : s.line.length < linebufSize) :
    (run source s bs).line.length < linebufSize := by
  induction bs generalizing s with
  | nil => exact h
  | cons c bs ih =>
    refine ih (s := step source s c) ?_
    rw [step]
    split_ifs with hc hlt
    · exact Nat.succ_pos _
    · rw [length_append, length_singleton]
      omega
    · exact Nat.succ_pos _

/-- The byte that finds the buffer full is lost. -/
theorem stored_run_of_long (source : Str) (hline : s.line.length < linebufSize) (hnl : newline ∉ bs)
    (hlen : linebufSize ≤ bs.length) : stored (run source s bs) < stored s + bs.length := by
  have hsize : linebufSize = 1024 := rfl
  have hk : linebufSize - 1 - s.line.length < bs.length := by omega
  obtain ⟨u, c, v, rfl, hu⟩ : ∃ u c v, bs = u ++ c :: v ∧ s.line.length + u.length = 1023 :=
    ⟨_, _, _, (take_append_drop _ bs).symm.trans (by rw [drop_eq_getElem_cons hk]), by
      rw [length_take]; omega⟩
  have hc : c ≠ newline := fun h => hnl (by simp [h])
  have hfull : run source s u = _ :=
    run_of_short source (fun h => hnl (mem_append_left _ h)) (by omega)
  have hrun : run source s (u ++ c :: v) =
      run source (emitLine source { s with line := s.line ++ u }) v := by
    rw [run, foldl_append, foldl_cons, show u.foldl (step source) s = _ from hfull, step, if_neg hc,
      if_neg]
    · rfl
    · rw [length_append]
      omega
  have hrest := stored_run source (emitLine source { s with line := s.line ++ u }) v
  have hemit := stored_emitLine source { s with line := s.line ++ u }
  have hfilter := (filter_sublist (p := (· ≠ newline)) (l := v)).length_le
  have hstored : stored { s with line := s.line ++ u } = stored s + u.length := by
    rw [stored, stored, length_append, Nat.add_assoc]
  rw [hrun, length_append, length_cons]
  omega

theorem short_of_data (h : data (flush source (run source ⟨[], []⟩ bs)) = bs.filter (· ≠ newline))
    {l : List Byte} (hl : l <:+: bs) (hnl : newline ∉ l) : l.length < linebufSize := by
  obtain ⟨w, z, rfl⟩ := hl
  by_contra hlong
  have hw := stored_run source ⟨[], []⟩ w
  have hlost := stored_run_of_long source (s := run source ⟨[], []⟩ w)
    (line_run_lt (Nat.succ_pos _)) hnl (Nat.le_of_not_lt hlong)
  have hz := stored_run source (run source (run source ⟨[], []⟩ w) l) z
  have hflush (s : State) : (data (flush source s)).length ≤ stored s := by
    rw [flush]
    split_ifs
    · exact (Nat.le_add_right _ _).trans (stored_emitLine source s)
    · exact Nat.le_add_right _ _
  have hall : l.filter (· ≠ newline) = l := filter_eq_self.mpr fun b hb =>
    decide_eq_true fun h => hnl (h ▸ hb)
  have hlen := congrArg length h
  have hle := hflush (run source ⟨[], []⟩ (w ++ l ++ z))
  have happend : run source ⟨[], []⟩ (w ++ l ++ z) =
      run source (run source (run source ⟨[], []⟩ w) l) z := by
    rw [run, foldl_append, foldl_append]
    rfl
  rw [filter_append, filter_append, hall, length_append, length_append] at hlen
  rw [happend] at hle hlen
  have hzero : stored ⟨[], []⟩ = 0 := rfl
  omega

/-- For an input without NUL, the data of the records is the input without its newlines and a record
ends at each newline, exactly if no line has 1024 bytes or more. The records do not depend on how
the input was split. -/
theorem cat_json_loses_nothing (source : Str) (pieces : List Piece) (hnul : 0 ∉ input pieces) :
    ((data (catJson source pieces 0).1 = (input pieces).filter (· ≠ newline) ∧
      ∀ u v, input pieces = u ++ newline :: v → ∃ out out', out ≠ [] ∧
        (catJson source pieces 0).1 = out ++ out' ∧ data out = u.filter (· ≠ newline) ∧
          data out' = v.filter (· ≠ newline)) ↔
      ∀ l, l <:+: input pieces → newline ∉ l → l.length < linebufSize) ∧
    ∀ pieces', input pieces' = input pieces →
      catJson source pieces' 0 = catJson source pieces 0 := by
  refine ⟨⟨fun h l => short_of_data (by rw [catJson_eq] at h; exact h.1), fun hshort =>
    ⟨?_, fun u v huv => ?_⟩⟩, fun pieces' hsame => ?_⟩
  · rw [catJson_eq]
    exact (kept_nil.run hnul hshort).flush hnul
  · rw [catJson_eq, huv]
    rw [huv] at hnul hshort
    have hu : 0 ∉ u := fun hmem => hnul (mem_append_left _ hmem)
    have hv : 0 ∉ v := fun hmem => hnul (mem_append_right _ (mem_cons_of_mem _ hmem))
    have hkept : Kept u (run source ⟨[], []⟩ u) := kept_nil.run hu fun l hl hnl =>
      hshort l (hl.trans ⟨[], newline :: v, rfl⟩) hnl
    have hkept' : Kept v (run source ⟨[], []⟩ v) := kept_nil.run hv fun l hl hnl =>
      hshort l (hl.trans ⟨u ++ [newline], [], by simp⟩) hnl
    have hrun : run source ⟨[], []⟩ (u ++ newline :: v) =
        run source (emitLine source (run source ⟨[], []⟩ u)) v := by
      rw [run, foldl_append, foldl_cons, Cat.step, if_pos rfl]
      rfl
    refine ⟨(emitLine source (run source ⟨[], []⟩ u)).out, flush source (run source ⟨[], []⟩ v),
      append_ne_nil_of_right_ne_nil _ (cons_ne_nil _ _), ?_, ?_, hkept'.flush hv⟩
    · rw [hrun, emitLine, run_out, flush_append]
    · rw [data_emitLine fun hmem => hu (hkept.suffix.subset hmem), hkept.data]
  · rw [catJson_eq, catJson_eq, hsame]

/-- Two lines, in pieces of two bytes and one. -/
theorem cat_json_loses_nothing_two_lines :
    input [⟨[97, 10], by decide⟩, ⟨[98], by decide⟩] = [97, 10, 98] ∧
    data (catJson [] [⟨[97, 10], by decide⟩, ⟨[98], by decide⟩] 0).1 = [97, 98] := by
  refine ⟨rfl, ((cat_json_loses_nothing [] [⟨[97, 10], by decide⟩, ⟨[98], by decide⟩]
    (by decide)).1.mpr fun l hl _ => ?_).1⟩
  exact hl.length_le.trans_lt (by decide)

/-- 512 times the letter `a`. -/
def letters : Piece := ⟨List.replicate 512 97, by rw [length_replicate]; decide⟩

theorem input_letters : input [letters, letters] = replicate 1023 97 ++ [97] := by
  rw [input, flatMap_cons, flatMap_singleton, letters, replicate_append_replicate,
    ← replicate_succ']

/-- Of a line of 1024 bytes, read in two pieces, the last byte is lost. -/
theorem cat_json_loses_byte :
    data (catJson [] [letters, letters] 0).1 = replicate 1023 97 ∧
      (input [letters, letters]).filter (· ≠ newline) = replicate 1024 97 := by
  have hnl : newline ∉ replicate 1023 (97 : Byte) := fun hmem =>
    absurd (eq_of_mem_replicate hmem) (by decide)
  have hnul : 0 ∉ replicate 1023 (97 : Byte) := fun hmem =>
    absurd (eq_of_mem_replicate hmem) (by decide)
  have hrun : run [] ⟨[], []⟩ (replicate 1023 97) = ⟨[], replicate 1023 97⟩ :=
    run_of_short _ hnl (by rw [length_replicate]; decide)
  have hlast : run [] ⟨[], []⟩ (input [letters, letters]) =
      emitLine [] ⟨[], replicate 1023 97⟩ := by
    rw [input_letters, run, foldl_append, foldl_cons, foldl_nil, ← run, hrun, step,
      if_neg (by decide), if_neg (by rw [length_replicate]; decide)]
  refine ⟨?_, ?_⟩
  · have hflush : flush [] (emitLine [] ⟨[], replicate 1023 97⟩) =
        (emitLine [] ⟨[], replicate 1023 97⟩).out := if_neg (Nat.lt_irrefl 0)
    rw [catJson_eq, hlast, hflush, data_emitLine hnul]
    rfl
  · rw [input_letters, ← replicate_succ', filter_replicate, if_pos (by decide)]

end Dave.Cat
