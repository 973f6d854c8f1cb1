import Dave.Fs.Dir
import Mathlib.Computability.Language

/-!
# `grep`

`grep` reads into a buffer of 1024 bytes, prints the lines of the buffer that match the pattern, and
keeps the bytes after the last newline for the next round. When there is no newline in the buffer it
keeps nothing: the beginning of a line that arrives in several pieces is lost.

A pattern stands for the texts that contain a word of the concatenation of its items; the matcher,
which tries the shortest words first, finds one if there is one.
-/

namespace Dave.Grep

open List

open Fs (Str)

/-- The characters newline, `^`, `*`, `$` and `.`. -/
abbrev newline : Byte := 10

@[inherit_doc newline] abbrev caret : Byte := 94

@[inherit_doc newline] abbrev star : Byte := 42

@[inherit_doc newline] abbrev dollar : Byte := 36

@[inherit_doc newline] abbrev dot : Byte := 46

abbrev bufSize : ℕ := 1024

/-! ### Patterns -/

/-- `matchstar`, where `here` says whether the rest of the pattern matches at the beginning of a
text. -/
def matchstar (c : Byte) (here : Str → Bool) : Str → Bool
  | [] => here []
  | t :: text => here (t :: text) || ((t = c || c = dot) && matchstar c here text)

def matchhere : Str → Str → Bool
  | [], _ => true
  | [c], text =>
    if c = dollar then text = []
    else match text with
      | [] => false
      | t :: text => (c = dot || c = t) && matchhere [] text
  | c :: c' :: re, text =>
    if c' = star then matchstar c (matchhere re) text
    else match text with
      | [] => false
      | t :: text => (c = dot || c = t) && matchhere (c' :: re) text

/-- The loop of `match`. -/
def matchAny (re : Str) : Str → Bool
  | [] => matchhere re []
  | t :: text => matchhere re (t :: text) || matchAny re text

/-- `match`. -/
def matchRe (re text : Str) : Bool :=
  match re with
  | [] => matchAny [] text
  | c :: re => if c = caret then matchhere re text else matchAny (c :: re) text

/-! ### The loop -/

/-- `strchr(p, '\n')`: what is before the newline, and what is behind it. -/
def strchr : List Byte → Option (Str × List Byte)
  | [] => none
  | c :: p =>
    if c = 0 then none
    else if c = newline then some ([], p)
    else (strchr p).map fun q => (c :: q.1, q.2)

/-- The inner loop of `grep`: what is written, and what is left from `p` on. Each round passes at
least one byte. -/
def lines (pattern : Str) : ℕ → List Byte → List Byte × List Byte
  | 0, p => ([], p)
  | fuel + 1, p =>
    match strchr p with
    | none => ([], p)
    | some (line, p) =>
      let r := lines pattern fuel p
      (if matchRe pattern line then line ++ newline :: r.1 else r.1, r.2)

/-- What is written when the first `m` bytes of the buffer are `b`, and what is kept. -/
def round (pattern : Str) (b : List Byte) : List Byte × List Byte :=
  let r := lines pattern b.length b
  (r.1, if r.2.length = b.length then [] else r.2)

/-- `grep`, where `b` has been kept and `read` returns these pieces and then 0: what it writes. -/
def grep (pattern : Str) : List Byte → List (List Byte) → List Byte
  | _, [] => []
  | b, piece :: pieces =>
    let r := round pattern (b ++ piece)
    r.1 ++ grep pattern r.2 pieces

/-- A condition on each piece and what has been kept before it. -/
def Reads (ok : List Byte → List Byte → Prop) (pattern : Str) : List Byte → List (List Byte) → Prop
  | _, [] => True
  | b, piece :: pieces => ok b piece ∧ Reads ok pattern (round pattern (b ++ piece)).2 pieces

/-- The pieces are not longer than the space that is offered. -/
def Delivered : Str → List Byte → List (List Byte) → Prop :=
  Reads fun b piece => 0 < piece.length ∧ piece.length ≤ bufSize - b.length - 1

/-- Each piece has a newline or fills the space that is offered. -/
def Whole : Str → List Byte → List (List Byte) → Prop :=
  Reads fun b piece => newline ∈ piece ∨ piece.length = bufSize - b.length - 1

/-- Lines as text. -/
def text (ls : List Str) : List Byte := ls.flatMap fun l => l ++ [newline]

/-- The lines that match, as text. -/
def selected (pattern : Str) (ls : List Str) : List Byte :=
  text (ls.filter fun l => matchRe pattern l)

variable {pattern : Str} {l r rest p : List Byte} {ls : List Str}

/-! ### One round -/

theorem text_cons (l : Str) (ls : List Str) : text (l :: ls) = l ++ newline :: text ls := by
  rw [text, flatMap_cons, append_assoc]
  rfl

theorem strchr_none (hr : newline ∉ r) : strchr r = none := by
  induction r with
  | nil => rfl
  | cons c r ih =>
    have hc : c ≠ newline := fun h => hr (h ▸ mem_cons_self)
    rw [strchr, if_neg hc, ih fun h => hr (mem_cons_of_mem _ h)]
    exact ite_self none

theorem strchr_line (hl : newline ∉ l) (hnul : 0 ∉ l) :
    strchr (l ++ newline :: p) = some (l, p) := by
  induction l with
  | nil => rfl
  | cons c l ih =>
    have hc : c ≠ newline := fun h => hl (h ▸ mem_cons_self)
    have hc0 : c ≠ 0 := fun h => hnul (h ▸ mem_cons_self)
    rw [cons_append, strchr, if_neg hc0, if_neg hc,
      ih (fun h => hl (mem_cons_of_mem _ h)) fun h => hnul (mem_cons_of_mem _ h)]
    rfl

theorem lines_eq (hls : ∀ l ∈ ls, newline ∉ l ∧ 0 ∉ l) (hr : newline ∉ r) {fuel : ℕ}
    (hfuel : ls.length ≤ fuel) : lines pattern fuel (text ls ++ r) = (selected pattern ls, r) := by
  induction ls generalizing fuel with
  | nil =>
    cases fuel with
    | zero => rfl
    | succ fuel =>
      rw [lines, show text [] ++ r = r from rfl, strchr_none hr]
      rfl
  | cons l ls ih =>
    obtain ⟨fuel, rfl⟩ := Nat.exists_eq_add_of_le' (Nat.lt_of_lt_of_le (Nat.succ_pos _) hfuel)
    have hl := hls l mem_cons_self
    have hrest := ih (fun l h => hls l (mem_cons_of_mem _ h))
      (Nat.le_of_succ_le_succ (by simpa using hfuel))
    rw [text_cons, append_assoc, cons_append, lines, strchr_line hl.1 hl.2]
    simp only [hrest, selected, filter_cons]
    split_ifs
    · rw [text_cons]
    · rfl

theorem length_le_text (ls : List Str) : ls.length ≤ (text ls).length := by
  induction ls with
  | nil => exact Nat.zero_le _
  | cons l ls ih =>
    rw [text_cons, length_append, length_cons, length_cons]
    omega

theorem round_eq (hls : ∀ l ∈ ls, newline ∉ l ∧ 0 ∉ l) (hr : newline ∉ r) (hne : ls ≠ []) :
    round pattern (text ls ++ r) = (selected pattern ls, r) := by
  have hlen := length_le_text ls
  have hpos := length_pos_iff.mpr hne
  rw [round, lines_eq hls hr (by rw [length_append]; omega)]
  dsimp only
  rw [if_neg (by rw [length_append]; omega)]

theorem lines_of_not_mem (hr : newline ∉ r) (fuel : ℕ) : lines pattern fuel r = ([], r) := by
  have hls : ∀ l ∈ ([] : List Str), newline ∉ l ∧ 0 ∉ l := by simp
  exact lines_eq hls hr (Nat.zero_le _)

theorem strchr_length {q : Str × List Byte} (h : strchr p = some q) :
    q.1.length + 1 + q.2.length = p.length := by
  induction p generalizing q with
  | nil => cases h
  | cons c p ih =>
    rw [strchr] at h
    split_ifs at h
    · cases h
      simp [Nat.add_comm]
    · obtain ⟨q', hq', rfl⟩ := Option.map_eq_some_iff.mp h
      have := ih hq'
      simp only [length_cons]
      omega

theorem lines_length (pattern : Str) (fuel : ℕ) (p : List Byte) :
    (lines pattern fuel p).1.length + (lines pattern fuel p).2.length ≤ p.length := by
  induction fuel generalizing p with
  | zero => simp [lines]
  | succ fuel ih =>
    rw [lines]
    split
    · simp
    · next line q hq =>
      have hq := strchr_length hq
      have := ih q
      dsimp only at hq ⊢
      split_ifs
      · simp only [length_append, length_cons]
        omega
      · omega

/-- What is kept does not depend on the pattern. -/
theorem lines_snd (re : Str) (fuel : ℕ) (p : List Byte) :
    (lines re fuel p).2 = (lines pattern fuel p).2 := by
  induction fuel generalizing p with
  | zero => rfl
  | succ fuel ih =>
    rw [lines, lines]
    split
    · rfl
    · exact ih _

theorem Reads.congr {ok : List Byte → List Byte → Prop} {b : List Byte} {pieces : List (List Byte)}
    (h : Reads ok pattern b pieces) (re : Str) : Reads ok re b pieces := by
  induction pieces generalizing b with
  | nil => trivial
  | cons piece pieces ih =>
    refine ⟨h.1, ?_⟩
    rw [round, lines_snd]
    exact ih h.2

theorem grep_length (pattern : Str) (b : List Byte) (pieces : List (List Byte)) :
    (grep pattern b pieces).length ≤ b.length + pieces.flatten.length := by
  induction pieces generalizing b with
  | nil => simp [grep]
  | cons piece pieces ih =>
    have hlines := lines_length pattern (b ++ piece).length (b ++ piece)
    have hrest := ih (round pattern (b ++ piece)).2
    have hkept : (round pattern (b ++ piece)).2.length ≤
        (lines pattern (b ++ piece).length (b ++ piece)).2.length := by
      rw [round]
      split_ifs
      · exact Nat.zero_le _
      · exact le_rfl
    rw [grep, flatten_cons]
    simp only [length_append, round] at *
    omega

theorem selected_nil (ls : List Str) : selected [] ls = text ls := by
  have hall (l : Str) : matchRe [] l = true := by
    cases l <;> simp [matchRe, matchAny, matchhere]
  simp [selected, hall]

/-! ### All rounds -/

theorem split_text (h : p ++ rest = text ls) (hls : ∀ l ∈ ls, newline ∉ l) :
    ∃ ls₁ ls₂ r, ls = ls₁ ++ ls₂ ∧ p = text ls₁ ++ r ∧ newline ∉ r ∧ r ++ rest = text ls₂ ∧
      (r = [] ∨ ∃ l ∈ ls₂, r.length ≤ l.length) := by
  induction ls generalizing p with
  | nil =>
    obtain ⟨rfl, rfl⟩ := append_eq_nil_iff.mp h
    exact ⟨[], [], [], rfl, rfl, not_mem_nil, rfl, .inl rfl⟩
  | cons l ls ih =>
    rw [text_cons, show l ++ newline :: text ls = (l ++ [newline]) ++ text ls by simp] at h
    rcases append_eq_append_iff.mp h with ⟨w, hw, hrest⟩ | ⟨w, hw, hrest⟩
    · -- the part ends in the first line
      cases w using reverseRecOn with
      | nil =>
        rw [append_nil] at hw
        exact ⟨[l], ls, [], rfl, by simp [text, ← hw], not_mem_nil, hrest, .inl rfl⟩
      | append_singleton w c =>
        rw [← append_assoc] at hw
        obtain ⟨hw, -⟩ := append_inj' hw rfl
        have hl := hls l mem_cons_self
        refine ⟨[], l :: ls, p, rfl, rfl, fun hmem => hl (hw ▸ mem_append_left _ hmem), ?_,
          .inr ⟨l, mem_cons_self, ?_⟩⟩
        · rw [text_cons, h]
          simp
        · rw [hw, length_append]
          omega
    · obtain ⟨ls₁, ls₂, r, rfl, rfl, hr, hrest', hlen⟩ :=
        ih hrest.symm fun l h => hls l (mem_cons_of_mem _ h)
      exact ⟨l :: ls₁, ls₂, r, rfl, by rw [hw, text_cons]; simp, hr, hrest', hlen⟩

section

variable {pieces : List (List Byte)} {b : List Byte}
  (hls : ∀ l ∈ ls, newline ∉ l ∧ 0 ∉ l ∧ l.length + 1 ≤ 1022) (hb : b ++ pieces.flatten = text ls)
  (hnl : newline ∉ b)

include hls hb hnl

theorem grep_of_whole (hdel : Delivered pattern b pieces) (hwhole : Whole pattern b pieces) :
    grep pattern b pieces = selected pattern ls := by
  induction pieces generalizing b ls with
  | nil =>
    rw [flatten_nil, append_nil] at hb
    cases ls with
    | nil => rfl
    | cons l ls =>
      rw [text_cons] at hb
      exact absurd (hb ▸ mem_append_right _ mem_cons_self) hnl
  | cons piece pieces ih =>
    rw [flatten_cons, ← append_assoc] at hb
    obtain ⟨ls₁, ls₂, r, rfl, hp, hr, hrest, hlen⟩ := split_text hb fun l h => (hls l h).1
    have hne : ls₁ ≠ [] := by
      rintro rfl
      have hpr : b ++ piece = r := hp
      rcases hwhole.1 with hmem | hfull
      · exact hr (hpr ▸ mem_append_right _ hmem)
      · have hdel := hdel.1
        have hsize : bufSize = 1024 := rfl
        have hr' := congrArg length hpr
        rw [length_append] at hr'
        rcases hlen with rfl | ⟨l, hl, hle⟩
        · rw [length_nil] at hr'
          omega
        · have := (hls l (mem_append_right _ hl)).2.2
          omega
    have hround : round pattern (text ls₁ ++ r) = (selected pattern ls₁, r) :=
      round_eq (fun l h => ⟨(hls l (mem_append_left _ h)).1,
        (hls l (mem_append_left _ h)).2.1⟩) hr hne
    obtain ⟨-, hdel⟩ := hdel
    obtain ⟨-, hwhole⟩ := hwhole
    rw [hp, hround] at hdel hwhole
    rw [grep, hp, hround]
    dsimp only
    rw [ih (fun l h => hls l (mem_append_right _ h)) hrest hr hdel hwhole]
    simp [selected, text]

/-- A piece that has no newline and does not fill the space is lost, so that less is written than
read when every line matches. -/
theorem whole_of_grep (hdel : Delivered [] b pieces) (hgrep : grep [] b pieces = text ls) :
    Whole [] b pieces := by
  induction pieces generalizing b ls with
  | nil => trivial
  | cons piece pieces ih =>
    rw [flatten_cons, ← append_assoc] at hb
    obtain ⟨ls₁, ls₂, r, rfl, hp, hr, hrest, -⟩ := split_text hb fun l h => (hls l h).1
    obtain ⟨hdel₁, hdel⟩ := hdel
    by_cases hne : ls₁ = []
    · subst hne
      have hlost : round [] (b ++ piece) = ([], []) := by
        rw [show b ++ piece = r from hp, round, lines_of_not_mem hr]
        simp
      have hle := grep_length [] [] pieces
      have hlen := congrArg length (hgrep.trans hb.symm)
      rw [grep, hlost] at hlen
      simp only [nil_append, length_nil, length_append] at hle hlen
      omega
    · have hround : round [] (text ls₁ ++ r) = (text ls₁, r) := by
        rw [round_eq (fun l h => ⟨(hls l (mem_append_left _ h)).1,
          (hls l (mem_append_left _ h)).2.1⟩) hr hne, selected_nil]
      rw [hp, hround] at hdel
      have htext : text (ls₁ ++ ls₂) = text ls₁ ++ text ls₂ := flatMap_append
      rw [grep, hp, hround, htext, append_cancel_left_eq] at hgrep
      refine ⟨.inl ?_, ?_⟩
      · have hmem : newline ∈ b ++ piece := by
          obtain ⟨l, ls₁, rfl⟩ := exists_cons_of_ne_nil hne
          rw [hp, text_cons]
          simp
        exact (mem_append.mp hmem).resolve_left hnl
      · rw [hp, hround]
        exact ih (fun l h => hls l (mem_append_right _ h)) hrest hr hdel hgrep

end

/-- `grep` prints the lines that match, in order, for every pattern exactly if each piece that
`read` delivers has a newline or fills the space that is offered. -/
theorem grep_selects (pattern : Str) (ls : List Str) (pieces : List (List Byte))
    (hls : ∀ l ∈ ls, newline ∉ l ∧ 0 ∉ l ∧ l.length + 1 ≤ 1022)
    (hinput : pieces.flatten = text ls) (hdel : Delivered pattern [] pieces) :
    (∀ re, grep re [] pieces = selected re ls) ↔ Whole pattern [] pieces := by
  refine ⟨fun h => ?_, fun h re => ?_⟩
  · have hnil := h []
    rw [selected_nil] at hnil
    exact (whole_of_grep hls hinput not_mem_nil (hdel.congr []) hnil).congr pattern
  · exact grep_of_whole hls hinput not_mem_nil (hdel.congr re) (h.congr re)

/-- Two lines, the second of which comes in two pieces. -/
theorem grep_selects_two_lines : Delivered [98] [] [[97, 10, 97], [98, 10]] ∧
    ∀ re, grep re [] [[97, 10, 97], [98, 10]] = selected re [[97], [97, 98]] := by
  have hdel : Delivered [98] [] [[97, 10, 97], [98, 10]] := ⟨by decide, by decide, trivial⟩
  refine ⟨hdel, (grep_selects [98] _ [[97, 10, 97], [98, 10]] ?_ rfl hdel).mpr
    ⟨Or.inl (by decide), Or.inl (by decide), trivial⟩⟩
  decide

/-- The line `ab` matches the pattern `a`, and is not printed if its letters come one by one. -/
theorem grep_loses_beginning :
    [[97], [98, 10]].flatten = text [[97, 98]] ∧ Delivered [97] [] [[97], [98, 10]] ∧
      grep [97] [] [[97], [98, 10]] = [] ∧ selected [97] [[97, 98]] = [97, 98, 10] :=
  ⟨by decide, ⟨by decide, by decide, trivial⟩, by decide, by decide⟩

/-! ### The language of patterns -/

/-- An item of a pattern: a character, or a character and `*`. -/
inductive Item where
  | one (c : Byte)
  | many (c : Byte)

/-- The texts of one character that `c` stands for. -/
def single (c : Byte) : Language Byte := {w | ∃ t, w = [t] ∧ (c = dot ∨ c = t)}

/-- The texts that an item stands for. -/
def Item.lang : Item → Language Byte
  | .one c => single c
  | .many c => KStar.kstar (single c)

/-- The items of a pattern without its leading `^`, and whether a `$` follows at the end. -/
def items : Str → List Item × Bool
  | [] => ([], false)
  | [c] => if c = dollar then ([], true) else ([.one c], false)
  | c :: c' :: re =>
    if c' = star then (.many c :: (items re).1, (items re).2)
    else (.one c :: (items (c' :: re)).1, (items (c' :: re)).2)

/-- A text begins with a word of the concatenation of the items, and ends with it if it has to. -/
def Begins (p : List Item × Bool) (text : Str) : Prop :=
  ∃ v w, text = v ++ w ∧ v ∈ (p.1.map Item.lang).prod ∧ (p.2 = true → w = [])

theorem begins_cons {i : Item} {p : List Item × Bool} {text : Str} :
    Begins (i :: p.1, p.2) text ↔ ∃ v w, text = v ++ w ∧ v ∈ i.lang ∧ Begins p w := by
  simp only [Begins, map_cons, prod_cons, Language.mem_mul]
  constructor
  · rintro ⟨_, w, rfl, ⟨a, ha, b, hb, rfl⟩, hw⟩
    exact ⟨a, b ++ w, append_assoc .., ha, b, w, rfl, hb, hw⟩
  · rintro ⟨a, _, rfl, ha, b, w, rfl, hb, hw⟩
    exact ⟨a ++ b, w, (append_assoc ..).symm, ⟨a, ha, b, hb, rfl⟩, hw⟩

theorem begins_one (c : Byte) (p : List Item × Bool) (text : Str) :
    Begins (.one c :: p.1, p.2) text ↔
      ∃ t text', text = t :: text' ∧ (c = dot ∨ c = t) ∧ Begins p text' := by
  rw [begins_cons]
  constructor
  · rintro ⟨_, w, rfl, ⟨t, rfl, ht⟩, hw⟩
    exact ⟨t, w, rfl, ht, hw⟩
  · rintro ⟨t, w, rfl, ht, hw⟩
    exact ⟨[t], w, rfl, ⟨t, rfl, ht⟩, hw⟩

theorem mem_kstar_single {c : Byte} {v : Str} : v ∈ KStar.kstar (single c) ↔
    v = [] ∨ ∃ t v', v = t :: v' ∧ (c = dot ∨ c = t) ∧ v' ∈ KStar.kstar (single c) := by
  rw [← Language.one_add_self_mul_kstar_eq_kstar, Language.mem_add, Language.mem_one,
    Language.mem_mul, Language.one_add_self_mul_kstar_eq_kstar]
  refine or_congr_right ⟨?_, ?_⟩
  · rintro ⟨_, ⟨t, rfl, ht⟩, v', hv', rfl⟩
    exact ⟨t, v', rfl, ht, hv'⟩
  · rintro ⟨t, v', rfl, ht, hv'⟩
    exact ⟨[t], ⟨t, rfl, ht⟩, v', hv', rfl⟩

theorem matchstar_iff {c : Byte} {here : Str → Bool} {text : Str} : matchstar c here text = true ↔
      ∃ v w, text = v ++ w ∧ v ∈ (Item.many c).lang ∧ here w = true := by
  simp only [Item.lang]
  induction text with
  | nil =>
    rw [matchstar]
    constructor
    · exact fun h => ⟨[], [], rfl, Language.nil_mem_kstar _, h⟩
    · rintro ⟨v, w, h, -, hw⟩
      rwa [← (append_eq_nil_iff.mp h.symm).2]
  | cons t text ih =>
    simp only [matchstar, Bool.or_eq_true, Bool.and_eq_true, decide_eq_true_eq, ih]
    constructor
    · rintro (h | ⟨ht, v, w, rfl, hv, hw⟩)
      · exact ⟨[], t :: text, rfl, Language.nil_mem_kstar _, h⟩
      · exact ⟨t :: v, w, rfl,
          mem_kstar_single.mpr (.inr ⟨t, v, rfl, ht.symm.imp_right Eq.symm, hv⟩), hw⟩
    · rintro ⟨v, w, htext, hv, hw⟩
      obtain rfl | ⟨t', v', rfl, ht, hv'⟩ := mem_kstar_single.mp hv
      · exact .inl (htext ▸ hw)
      · obtain ⟨rfl, rfl⟩ := cons.inj htext
        exact .inr ⟨(ht.imp_right Eq.symm).symm, v', w, rfl, hv', hw⟩

theorem matchhere_iff (re text : Str) : matchhere re text = true ↔ Begins (items re) text := by
  -- the pattern gets shorter by an item, the text by any number of characters
  induction hn : re.length using Nat.strong_induction_on generalizing re text with
  | _ n ih =>
    subst hn
    rcases re with _ | ⟨c, _ | ⟨c', re⟩⟩
    · exact iff_of_true rfl ⟨[], text, rfl, rfl, by simp [items]⟩
    · by_cases hc : c = dollar
      · simp [matchhere, items, Begins, hc]
      · have hone := begins_one c ([], false) text
        simp only [items, if_neg hc] at hone ⊢
        rw [hone]
        cases text <;> simp only [matchhere, if_neg hc] <;> simp [Begins]
    · by_cases hc : c' = star
      · have hre := fun w => ih re.length (by simp +arith) re w rfl
        simp only [matchhere, items, hc, if_true]
        rw [matchstar_iff, begins_cons]
        simp only [hre]
      · simp only [matchhere, items, hc, if_false]
        rw [begins_one]
        cases text with
        | nil => simp
        | cons t text => simp [ih (c' :: re).length (by simp) (c' :: re) text rfl]

theorem matchAny_iff (re text : Str) :
    matchAny re text = true ↔ ∃ u w, text = u ++ w ∧ matchhere re w = true := by
  induction text with
  | nil => simp [matchAny]
  | cons t text ih =>
    rw [matchAny, Bool.or_eq_true, ih]
    constructor
    · rintro (h | ⟨u, w, rfl, hw⟩)
      · exact ⟨[], t :: text, rfl, h⟩
      · exact ⟨t :: u, w, rfl, hw⟩
    · rintro ⟨u, w, htext, hw⟩
      cases u with
      | nil => exact .inl (htext ▸ hw)
      | cons t' u => exact .inr ⟨u, w, (cons.inj htext).2, hw⟩

/-- `match` finds a word of the concatenation of the items in the text: at its beginning if the
pattern begins with `^`, and at its end if the pattern ends with `$`. -/
theorem match_iff (re text : Str) :
    matchRe re text = true ↔ ∃ u v w, text = u ++ v ++ w ∧
      v ∈ ((items (re.drop (if re.head? = some caret then 1 else 0))).1.map Item.lang).prod ∧
      (re.head? = some caret → u = []) ∧
      ((items (re.drop (if re.head? = some caret then 1 else 0))).2 = true → w = []) := by
  by_cases hre : re.head? = some caret
  · obtain ⟨re, rfl⟩ := head?_eq_some_iff.mp hre
    simp [matchRe, matchhere_iff, Begins]
  · have hany : matchRe re text = matchAny re text := by
      cases re with
      | nil => rfl
      | cons c re =>
        rw [matchRe, if_neg]
        rintro rfl
        exact hre rfl
    simp only [hany, matchAny_iff, matchhere_iff, Begins, hre, if_false, drop_zero,
      false_implies, true_and]
    constructor
    · rintro ⟨u, _, rfl, v, w, rfl, hv, hw⟩
      exact ⟨u, v, w, (append_assoc ..).symm, hv, hw⟩
    · rintro ⟨u, v, w, rfl, hv, hw⟩
      exact ⟨u, v ++ w, append_assoc .., v, w, rfl, hv, hw⟩

end Dave.Grep
