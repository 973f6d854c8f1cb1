import Dave.Fs.Storing

/-!
# The line editor

`ted` keeps numbered lines in a buffer. Its command `WRITE` opens the file, writes each line with
its number, and closes the file. `open` does not cut the file that it finds, so that what the file
had beyond the new text stays.
-/

namespace Dave.Ted

open Dave.Fs Prog

abbrev maxCols : ℕ := 160

/-- A line of the buffer (`struct line`). The text is what stands before the NUL, for which
`editor_copy` leaves room. -/
structure Line where
  number : Word
  text : Str
  ne_zero : 0 ∉ text
  length_lt : text.length < maxCols
deriving DecidableEq

/-- The characters `0`, space, newline and `-`. -/
abbrev zero : Byte := 48

@[inherit_doc zero] abbrev space : Byte := 32

@[inherit_doc zero] abbrev newline : Byte := 10

@[inherit_doc zero] abbrev minus : Byte := 45

/-! ### Digits -/

/-- The loop of `save_file` that puts the digits into `tmp`, the last one first. There is `room` for
so many. -/
def digitsLoop : ℕ → ℤ → List Byte → List Byte
  | 0, _, tmp => tmp
  | room + 1, n, tmp =>
    if 0 < n then digitsLoop room (n.tdiv 10) (tmp ++ [zero + BitVec.ofInt 8 (n.tmod 10)]) else tmp

/-- The bytes that `save_file` writes for a number: its digits and a space. -/
def numbuf (n : ℤ) : List Byte :=
  let tmp := if n = 0 then [zero] else []
  (digitsLoop (16 - tmp.length) n tmp).reverse ++ [space]

/-- A number in decimal. -/
def decimal (n : ℤ) : List Byte :=
  (if n < 0 then [minus] else []) ++ (Nat.toDigits 10 n.natAbs).map fun c => BitVec.ofNat 8 c.toNat

theorem digitChar_byte {d : ℕ} (h : d < 10) :
    BitVec.ofNat 8 (Nat.digitChar d).toNat = zero + BitVec.ofNat 8 d := by
  have hall : ∀ d : Fin 10,
      BitVec.ofNat 8 (Nat.digitChar d).toNat = zero + BitVec.ofNat 8 d := by decide
  exact hall ⟨d, h⟩

/-- The digits are found from the last to the first. -/
theorem digitsLoop_eq {room n : ℕ} (hpos : 0 < n) (hlt : n < 10 ^ room) (tmp : List Byte) :
    digitsLoop room n tmp =
      tmp ++ ((Nat.toDigits 10 n).map fun c => BitVec.ofNat 8 c.toNat).reverse := by
  induction room generalizing n tmp with
  | zero => omega
  | succ room ih =>
    have hdiv : (n : ℤ).tdiv 10 = ((n / 10 : ℕ) : ℤ) := rfl
    have hmod : BitVec.ofInt 8 ((n : ℤ).tmod 10) = BitVec.ofNat 8 (n % 10) := rfl
    rw [digitsLoop, if_pos (by omega), hdiv, hmod, Nat.toDigits_eq_if (by omega)]
    split_ifs with hsmall
    · rw [Nat.div_eq_of_lt hsmall, Nat.mod_eq_of_lt hsmall]
      cases room with
      | zero | succ room => simp [digitsLoop, digitChar_byte hsmall]
    · rw [ih (by omega) (by rw [pow_succ] at hlt; omega)]
      simp [digitChar_byte (Nat.mod_lt n (by omega : 0 < 10))]

theorem numbuf_eq {n : ℤ} (hn : 0 ≤ n) (hlt : n < 2 ^ 31) : numbuf n = decimal n ++ [space] := by
  obtain ⟨m, rfl⟩ := Int.eq_ofNat_of_zero_le hn
  rw [numbuf, decimal, if_neg (not_lt.mpr hn), List.nil_append, Int.natAbs_natCast]
  by_cases hm : m = 0
  · subst hm
    rfl
  · have hpos : 0 < m := Nat.pos_of_ne_zero hm
    rw [if_neg (by omega), List.length_nil, digitsLoop_eq hpos (by omega), List.nil_append,
      List.reverse_reverse]

/-! ### `save_file` -/

section Save

variable {P : Type} [DecidableEq P]

/-- The three calls of `write` for a line: whether each returned the number of its bytes, which the
program does not look at. -/
def saveLine (me : P) (fd : ℤ) (l : Line) : Kernel P Bool := do
  let num := numbuf l.number.toInt
  let r₁ ← sysWrite me fd num
  let r₂ ← sysWrite me fd l.text
  let r₃ ← sysWrite me fd [newline]
  return decide (r₁ = num.length ∧ r₂ = l.text.length ∧ r₃ = 1)

/-- The loop of `save_file` over the lines. -/
def saveLines (me : P) (fd : ℤ) : List Line → Kernel P Bool
  | [] => return true
  | l :: ls => do
    let ok ← saveLine me fd l
    let rest ← saveLines me fd ls
    return ok && rest

/-- `save_file`, less the state of the editor and its messages: `none` if it could not open the
file, otherwise whether every `write` wrote all its bytes. -/
def saveFile (me : P) (name : Str) (buffer : List Line) : Kernel P (Option Bool) := do
  let fd ← sysOpen me (some name) (oCreate ||| oWronly)
  if fd < 0 then
    return none
  else
    let ok ← saveLines me fd buffer
    let _ ← sysClose me fd
    return some ok

/-- A line with its number, as text. -/
def Line.listing (l : Line) : List Byte := decimal l.number.toInt ++ [space] ++ l.text ++ [newline]

/-- The lines with their numbers, as text. -/
def listing (buffer : List Line) : List Byte := buffer.flatMap Line.listing

/-- The bytes that `save_file` writes. -/
def written (buffer : List Line) : List Byte :=
  buffer.flatMap fun l => numbuf l.number.toInt ++ l.text ++ [newline]

omit [DecidableEq P] in
theorem written_eq {buffer : List Line} (h : ∀ l ∈ buffer, 0 ≤ l.number.toInt) :
    written buffer = listing buffer := by
  refine List.flatMap_congr fun l hl => ?_
  have hlt : l.number.toInt < 2 ^ 31 := by
    have := BitVec.toInt_lt (x := l.number)
    simpa using this
  rw [numbuf_eq (h l hl) hlt, Line.listing]

omit [DecidableEq P] in
/-- Where a number is negative, `save_file` writes the blank and not the sign. -/
theorem nonneg_of_written {buffer : List Line} {rest : List Byte}
    (h : written buffer ++ rest = listing buffer) : ∀ l ∈ buffer, 0 ≤ l.number.toInt := by
  induction buffer with
  | nil => exact fun l hl => absurd hl List.not_mem_nil
  | cons l ls ih =>
    have hcons : written (l :: ls) = written [l] ++ written ls := by
      rw [written, written, written, ← List.flatMap_append, List.singleton_append]
    have hlisting : listing (l :: ls) = l.listing ++ listing ls := List.flatMap_cons ..
    by_cases hl : 0 ≤ l.number.toInt
    · have hfirst : written [l] = l.listing := by
        rw [written_eq (by simpa using hl), listing, List.flatMap_singleton]
      rw [hcons, hlisting, hfirst, List.append_assoc, List.append_cancel_left_eq] at h
      exact List.forall_mem_cons.mpr ⟨hl, ih h⟩
    · have hnumbuf : numbuf l.number.toInt = [space] := by
        simp [numbuf, digitsLoop, show ¬ l.number.toInt = 0 by omega,
          show ¬ 0 < l.number.toInt by omega]
      have hhead := congrArg List.head? h
      simp [hlisting, written, Line.listing, decimal, hnumbuf, not_le.mp hl] at hhead

variable {s s' t : State P} {me : P} {path : Str} {fd : Fin nOfile} {f : Fin nFile} {ip : Slot}
  {new : List Byte} {off : ℕ}

section Calls

variable {ok : Prop}

/-- `Writing` up to the offset, which is not beyond the end of the file. -/
def Wrote (t : State P) (f : Fin nFile) (ip : Slot) (new : List Byte) (off : ℕ) (s : State P) :
    Prop :=
  Writing t f ip new off s ∧ off ≤ new.length

omit [DecidableEq P] in
theorem Wrote.trans {a b : List Byte} (hoff : off ≤ new.length)
    (h : Wrote t f ip (splice (splice new off a) (off + a.length) b)
      (off + a.length + b.length) s) :
    Wrote t f ip (splice new off (a ++ b)) (off + (a ++ b).length) s := by
  rwa [splice_splice hoff, add_assoc, ← List.length_append] at h

theorem write_spec (ho : Opened me s path fd f ip t) (h : ok → Wrote t f ip new off s')
    (src : List Byte) :
    Wpx me (fun _ => True) (sysWrite me (fd : ℕ) src) (fun r s'' => ok ∧ r = src.length →
      Wrote t f ip (splice new off src) (off + src.length) s'') s' := by
  by_cases hok : ok
  · obtain ⟨hw, hoff⟩ := h hok
    have hlen : (splice new off src).length = _ := length_splice hoff
    refine (hw.sysWrite (by rw [ho.file]) ho.ref ho.type_eq ho.ofile (by rw [ho.file])
      (by rw [ho.file]) hoff src).mono fun r s'' hr hand => ⟨hr hand.2, by omega⟩
  · exact (Wpx.trivial ..).mono fun _ _ _ hand => absurd hand.1 hok

/-- A line is written at the offset of the file. -/
theorem saveLine_spec (ho : Opened me s path fd f ip t) (hoff : off ≤ new.length)
    (h : ok → Wrote t f ip new off s') (l : Line) :
    Wpx me (fun _ => True) (saveLine me (fd : ℕ) l) (fun r s'' => ok ∧ r = true →
      Wrote t f ip (splice new off (written [l])) (off + (written [l]).length) s'') s' := by
  have h₁ : (splice new off (numbuf l.number.toInt)).length = _ := length_splice hoff
  rw [saveLine]
  simp only [wpx_bind]
  refine (write_spec ho h _).mono fun r₁ s₁ hr₁ => ?_
  refine (write_spec ho hr₁ _).mono fun r₂ s₂ hr₂ => ?_
  refine (write_spec ho hr₂ _).mono fun r₃ s₃ hr₃ => ?_
  rintro ⟨hok, hr⟩
  obtain ⟨e₁, e₂, e₃⟩ := of_decide_eq_true hr
  have hw := hr₃ ⟨⟨⟨hok, e₁⟩, e₂⟩, by rw [e₃]; rfl⟩
  have hwritten : written [l] = numbuf l.number.toInt ++ (l.text ++ [newline]) := by
    rw [written, List.flatMap_singleton, List.append_assoc]
  rw [hwritten]
  exact .trans hoff (.trans (by omega) hw)

theorem saveLines_spec (ho : Opened me s path fd f ip t) (hoff : off ≤ new.length)
    (h : ok → Wrote t f ip new off s') (ls : List Line) :
    Wpx me (fun _ => True) (saveLines me (fd : ℕ) ls) (fun r s'' => ok ∧ r = true →
      Wrote t f ip (splice new off (written ls)) (off + (written ls).length) s'') s' := by
  induction ls generalizing s' new off ok with
  | nil =>
    rintro ⟨hok, -⟩
    rw [show written [] = [] from rfl, splice_nil hoff]
    exact h hok
  | cons l ls ih =>
    have h₁ : (splice new off (written [l])).length = _ := length_splice hoff
    rw [saveLines]
    simp only [wpx_bind]
    refine (saveLine_spec ho hoff h l).mono fun r₁ s₁ hr₁ => ?_
    refine (ih (by omega) hr₁).mono fun r₂ s₂ hr₂ => ?_
    rintro ⟨hok, hr⟩
    obtain ⟨e₁, e₂⟩ := Bool.and_eq_true_iff.mp hr
    have hwritten : written (l :: ls) = written [l] ++ written ls := by
      rw [written, written, written, ← List.flatMap_append, List.singleton_append]
    rw [hwritten]
    exact .trans hoff (hr₂ ⟨⟨hok, e₁⟩, e₂⟩)

end Calls

/-- The text of the buffer replaces the beginning of the file. -/
theorem saveFile_spec (hq : Quiescent s me) (name : Str) (buffer : List Line) :
    Wpx me (fun _ => True) (saveFile me name buffer) (fun r s' => r = some true →
      s'.contents me name = some (splice ((s.contents me name).getD []) 0 (written buffer))) s := by
  rw [saveFile, wpx_bind]
  refine (hq.sysOpen name).mono fun r t hr => ?_
  split_ifs with hneg
  · exact fun hr => absurd hr (by simp)
  obtain ⟨fd, f, ip, rfl, ho⟩ := hr (by omega)
  simp only [wpx_bind]
  refine (saveLines_spec ho (Nat.zero_le _) (fun _ : True => ⟨ho.writing, Nat.zero_le _⟩)
    buffer).mono fun ok s₁ hs₁ => ?_
  cases ok with
  | false => exact (Wpx.trivial ..).mono fun _ _ _ hr => absurd hr (by simp)
  | true =>
    obtain ⟨hw, -⟩ := hs₁ ⟨trivial, rfl⟩
    refine (hw.sysClose (by rw [ho.file]) ho.ref ho.type_eq ho.ofile (by rw [ho.file])
      (by rw [ho.file]) ho.keep).mono fun _ s₂ hs₂ _ => ?_
    obtain ⟨hview, hcwd, hinum⟩ := hs₂
    exact ho.contents hq hw hview hcwd hinum

/-- For a file that `save_file` opened and to which every `write` wrote all its bytes: the file has
exactly the text of the buffer afterwards, if and only if no line number is negative and the file
was absent or not longer than the text. -/
theorem save_file_stores (hq : Quiescent s me) (name : Str) (buffer : List Line) :
    Wpx me (fun _ => True) (saveFile me name buffer) (fun r s' => r = some true →
      (s'.contents me name = some (listing buffer) ↔ (∀ l ∈ buffer, 0 ≤ l.number.toInt) ∧
        ∀ old, s.contents me name = some old → old.length ≤ (listing buffer).length)) s := by
  refine (saveFile_spec hq name buffer).mono fun r s' hr htrue => ?_
  have hold : (∀ old, s.contents me name = some old → old.length ≤ (listing buffer).length) ↔
      ((s.contents me name).getD []).length ≤ (listing buffer).length := by
    cases hc : s.contents me name <;> simp
  rw [hr htrue, hold, Option.some.injEq, splice, List.take_zero, List.nil_append]
  constructor
  · intro h
    have hnum := nonneg_of_written h
    refine ⟨hnum, ?_⟩
    rw [written_eq hnum] at h
    have hdrop := List.self_eq_append_right.mp h.symm
    rw [List.drop_eq_nil_iff] at hdrop
    omega
  · rintro ⟨hnum, hle⟩
    rw [written_eq hnum, List.drop_eq_nil_of_le (by omega), List.append_nil]

end Save

/-- Two lines, `10 ab` and `20 c`. -/
def twoLines : List Line := [⟨10, [97, 98], by decide, by decide⟩, ⟨20, [99], by decide, by decide⟩]

/-- They are stored in a file that is absent. -/
theorem save_file_stores_two_lines : ∃ s : State (Fin 2), s = image ∧
    (exec 0 (saveFile 0 [102] twoLines) s).toOption.map Prod.fst = some (some true) ∧
    Wpx 0 (fun _ => True) (saveFile 0 [102] twoLines) (fun r s' => r = some true →
      s'.contents 0 [102] = some (listing twoLines)) s := by
  obtain ⟨s, hs⟩ : ∃ s, s = image := ⟨_, rfl⟩
  have habsent : s.contents 0 [102] = none := by
    rw [hs]
    decide +kernel
  refine ⟨s, hs, ?_, (save_file_stores (hs ▸ quiescent_image 0) [102] twoLines).mono
    fun r s' h hr => (h hr).mpr ⟨by decide, fun old hold => ?_⟩⟩
  · rw [hs]
    decide +kernel
  · rw [habsent] at hold
    cases hold

/-- When the first of two lines is saved after both have been, the file still ends with the
second. -/
theorem save_file_keeps_tail : ∃ s',
    exec (0 : Fin 2) (do
      let both ← saveFile 0 [102] twoLines
      let first ← saveFile 0 [102] (twoLines.take 1)
      return (both, first)) image = .ok ((some true, some true), s') ∧
    s'.contents 0 [102] = some (listing twoLines) ∧
    s'.contents 0 [102] ≠ some (listing (twoLines.take 1)) := by
  have hrun : (exec (0 : Fin 2) (do
      let both ← saveFile 0 [102] twoLines
      let first ← saveFile 0 [102] (twoLines.take 1)
      return (both, first)) image).toOption.map (fun r => (r.1, r.2.contents 0 [102])) =
        some ((some true, some true), some (listing twoLines)) := by decide +kernel
  cases hexec : exec (0 : Fin 2) (do
      let both ← saveFile 0 [102] twoLines
      let first ← saveFile 0 [102] (twoLines.take 1)
      return (both, first)) image with
  | error e =>
    rw [hexec] at hrun
    cases hrun
  | ok r =>
    rw [hexec] at hrun
    obtain ⟨hres, hcontents⟩ := Prod.mk.inj (Option.some.inj hrun)
    refine ⟨r.2, ?_, hcontents, ?_⟩
    · rw [← hres]
    · rw [hcontents]
      decide

end Dave.Ted
