import Dave.User.Memmove

/-!
# The text screen

`cgaputc` writes characters to the memory of the display, from the position that the CRT controller
holds, and keeps the controller's position up to date. Its index passes through `24 * 80` before the
screen is scrolled. What it does is described by a terminal of 24 rows and 80 columns, whose cursor
cannot be anywhere else.
-/

namespace Dave.Screen

open Function Memmove

/-! ### Code -/

/-- `crt`, which is `P2V(0xb8000)`. -/
abbrev crt : Word := 0x800b8000

/-- The address of cell `i`. -/
def addr (i : ℕ) : Word := crt + BitVec.ofNat 32 (2 * i)

/-- `crt[i]`. -/
def cell (m : Ram) (i : ℕ) : BitVec 16 := m (addr i + 1) ++ m (addr i)

/-- `crt[i] = v`. -/
def setCell (i : ℕ) (v : BitVec 16) (m : Ram) : Ram :=
  update (update m (addr i) (v.setWidth 8)) (addr i + 1) ((v >>> 8).setWidth 8)

/-- `rep stosb`. -/
def stosb : ℕ → Word → Byte → Ram → Ram
  | 0, _, _, m => m
  | n + 1, d, c, m => stosb n (d + 1) c (update m d c)

/-- `rep stosl`, for a word that consists of four copies of `c`. -/
def stosl : ℕ → Word → Byte → Ram → Ram
  | 0, _, _, m => m
  | n + 1, d, c, m => stosl n (d + 4) c (stosb 4 d c m)

def memset (dst : Word) (c : Byte) (n : ℕ) (m : Ram) : Ram :=
  if dst.toInt % 4 = 0 ∧ n % 4 = 0 then stosl (n / 4) dst c m else stosb n dst c m

/-- The memory, and the position in the registers 14 and 15 of the controller. -/
structure Crt where
  ram : Ram
  high : Byte
  low : Byte

/-- The position that is read from the controller. -/
def Crt.pos (s : Crt) : ℕ := s.high.toNat * 256 + s.low.toNat

abbrev backspace : Word := 0x100

abbrev newline : Word := 10

/-- The cell for a character, black on white. -/
def glyph (c : Word) : BitVec 16 := (c &&& 0xff).setWidth 16 ||| 0x0700

/-- The message `pos under/overflow`. -/
inductive Panic where
  | overflow

/-- The second half of `cgaputc`: scroll up, store the position and blank the cell there. -/
def settle (pos : ℕ) (m : Ram) : Crt :=
  let (pos, m) :=
    if 24 ≤ pos / 80 then
      let m := Runtime.memmove crt (crt + 2 * 80) (2 * 23 * 80) m
      (pos - 80, memset (addr (pos - 80)) 0 (2 * (24 * 80 - (pos - 80))) m)
    else (pos, m)
  ⟨setCell pos 0x0720 m, BitVec.ofNat 8 (pos / 256), BitVec.ofNat 8 pos⟩

def cgaputc (s : Crt) (c : Word) : Except Panic Crt :=
  let (pos, m) :=
    if c = newline then (s.pos + (80 - s.pos % 80), s.ram)
    else if c = backspace then (s.pos - 1, s.ram)
    else (s.pos + 1, setCell s.pos (glyph c) s.ram)
  if 25 * 80 < pos then .error .overflow else .ok (settle pos m)

/-! ### The terminal -/

/-- A terminal: its cells and the place of its cursor. -/
@[ext]
structure Term where
  grid : Fin 24 → Fin 80 → BitVec 16
  row : Fin 24
  col : Fin 80

namespace Term

/-- The cursor goes to the next row. If there is none all rows move up, and the last is cleared. -/
def nextLine (t : Term) : Term :=
  if h : t.row.val + 1 < 24 then { t with row := ⟨t.row + 1, h⟩, col := 0 }
  else
    { grid := fun r c => if h : r.val + 1 < 24 then t.grid ⟨r + 1, h⟩ c else 0
      row := t.row
      col := 0 }

/-- The cursor goes to the next cell. -/
def forward (t : Term) : Term :=
  if h : t.col.val + 1 < 80 then { t with col := ⟨t.col + 1, h⟩ } else t.nextLine

/-- The cursor goes to the cell before, if there is one. -/
def back (t : Term) : Term :=
  if 0 < t.col.val then { t with col := ⟨t.col - 1, by omega⟩ }
  else if 0 < t.row.val then { t with row := ⟨t.row - 1, by omega⟩, col := 79 }
  else t

/-- The cell at the cursor is written. -/
def set (t : Term) (v : BitVec 16) : Term :=
  { t with grid := fun r c => if r = t.row ∧ c = t.col then v else t.grid r c }

/-- A character is sent to the terminal. Afterwards the cell at the cursor is blank. -/
def put (t : Term) (c : Word) : Term :=
  (if c = newline then t.nextLine else if c = backspace then t.back
    else (t.set (glyph c)).forward).set 0x0720

end Term

/-- What is on the screen, with the cursor at `pos`. -/
def view (pos : ℕ) (m : Ram) : Term where
  grid r c := cell m (80 * r + c)
  row := Fin.ofNat 24 (pos / 80)
  col := Fin.ofNat 80 (pos % 80)

/-! ### Cells -/

variable {m : Ram} {i j n pos : ℕ} {a d : Word} {c : Byte}

theorem toNat_addr (h : i < 2 ^ 16) : (addr i).toNat = 0x800b8000 + 2 * i := by
  rw [addr]
  bv_omega

/-- Memory outside of the screen is left alone. -/
def Framed (m m' : Ram) : Prop :=
  ∀ a : Word, (a.toNat < 0x800b8000 ∨ 0x800b8000 + 2 * (24 * 80) ≤ a.toNat) → m' a = m a

theorem cell_setCell (hi : i < 2 ^ 16) (hj : j < 2 ^ 16) (v : BitVec 16) :
    cell (setCell i v m) j = if j = i then v else cell m j := by
  have hai := toNat_addr hi
  have haj := toNat_addr hj
  rw [cell, cell, setCell]
  split_ifs with hij
  · subst hij
    have hne : addr j ≠ addr j + 1 := by bv_omega
    rw [update_self, update_of_ne hne, update_self]
    ext k hk
    simp
    grind
  · rw [update_of_ne (by bv_omega), update_of_ne (by bv_omega), update_of_ne (by bv_omega),
      update_of_ne (by bv_omega)]

theorem framed_setCell (hi : i < 24 * 80) (v : BitVec 16) : Framed m (setCell i v m) := by
  intro a ha
  have hai := toNat_addr (i := i) (by omega)
  rw [setCell, update_of_ne (by bv_omega), update_of_ne (by bv_omega)]

theorem stosb_apply (hd : d.toNat + n ≤ 2 ^ 32) :
    stosb n d c m a = if d.toNat ≤ a.toNat ∧ a.toNat < d.toNat + n then c else m a := by
  induction n generalizing d m with
  | zero => rw [stosb, if_neg (by omega)]
  | succ n ih =>
    rw [stosb]
    by_cases hn : n = 0
    · subst hn
      rw [stosb, update_apply]
      exact if_congr (by bv_omega) rfl rfl
    · rw [ih (by bv_omega), update_apply]
      split_ifs <;> first | rfl | (exfalso; bv_omega)

theorem stosl_apply (hd : d.toNat + 4 * n ≤ 2 ^ 32) :
    stosl n d c m a = if d.toNat ≤ a.toNat ∧ a.toNat < d.toNat + 4 * n then c else m a := by
  induction n generalizing d m with
  | zero => rw [stosl, if_neg (by omega)]
  | succ n ih =>
    rw [stosl]
    by_cases hn : n = 0
    · subst hn
      rw [stosl, stosb_apply (by omega)]
    · rw [ih (by bv_omega), stosb_apply (by omega)]
      split_ifs <;> first | rfl | (exfalso; bv_omega)

theorem memset_apply (hd : d.toNat + n ≤ 2 ^ 32) :
    memset d c n m a = if d.toNat ≤ a.toNat ∧ a.toNat < d.toNat + n then c else m a := by
  rw [memset]
  split_ifs with h
  all_goals first
    | rw [stosl_apply (by omega)]
    | rw [stosb_apply hd]
  all_goals split_ifs <;> first | rfl | omega

theorem framed_memset {p : ℕ} (hp : p ≤ 24 * 80) :
    Framed m (memset (addr p) 0 (2 * (24 * 80 - p)) m) := by
  intro a ha
  have hap := toNat_addr (i := p) (by omega)
  rw [memset_apply (by omega), if_neg (by omega)]

theorem cell_memset {p : ℕ} (hp : p ≤ 24 * 80) (hj : j < 24 * 80) :
    cell (memset (addr p) 0 (2 * (24 * 80 - p)) m) j = if p ≤ j then 0 else cell m j := by
  have hap := toNat_addr (i := p) (by omega)
  have haj := toNat_addr (i := j) (by omega)
  have haj' : (addr j + 1).toNat = 0x800b8000 + 2 * j + 1 := by bv_omega
  rw [cell, memset_apply (by omega), memset_apply (by omega), haj, haj', hap]
  split_ifs <;> first | rfl | omega

theorem memmove_crt : Runtime.memmove crt (crt + 2 * 80) (2 * 23 * 80) m =
    moved crt (crt + 2 * 80) (2 * 23 * 80) m :=
  runtime_memmove_eq (by decide) (by decide)

theorem cell_memmove (hj : j < 24 * 80) :
    cell (Runtime.memmove crt (crt + 2 * 80) (2 * 23 * 80) m) j =
      if j < 23 * 80 then cell m (j + 80) else cell m j := by
  have haj := toNat_addr (i := j) (by omega)
  have haj' : (addr j + 1).toNat = 0x800b8000 + 2 * j + 1 := by bv_omega
  have hcrt : crt.toNat = 0x800b8000 := rfl
  rw [memmove_crt, cell, moved, moved, haj, haj', hcrt]
  split_ifs with h1 h2 h3 <;> try omega
  · have hfrom : crt + 2 * 80 + (addr j - crt) = addr (j + 80) := by simp only [addr]; bv_omega
    have hfrom' : crt + 2 * 80 + (addr j + 1 - crt) = addr (j + 80) + 1 := by
      simp only [addr]; bv_omega
    rw [hfrom, hfrom', cell]
  · rfl

theorem framed_memmove : Framed m (Runtime.memmove crt (crt + 2 * 80) (2 * 23 * 80) m) := by
  intro a ha
  have hcrt : crt.toNat = 0x800b8000 := rfl
  rw [memmove_crt, moved, if_neg (by omega)]

/-! ### Positions -/

theorem view_grid (r : Fin 24) (c : Fin 80) : (view pos m).grid r c = cell m (80 * r + c) := rfl

theorem val_row (h : pos < 24 * 80) : (view pos m).row.val = pos / 80 :=
  Nat.mod_eq_of_lt (by omega)

theorem val_col (pos : ℕ) (m : Ram) : (view pos m).col.val = pos % 80 := Nat.mod_mod _ _

theorem view_setCell (h : pos < 24 * 80) (v : BitVec 16) :
    view pos (setCell pos v m) = (view pos m).set v := by
  refine Term.ext (funext fun r => funext fun c => ?_) rfl rfl
  have hr := r.isLt
  have hc := c.isLt
  rw [view_grid, cell_setCell (by omega) (by omega)]
  refine if_congr ?_ rfl rfl
  rw [Fin.ext_iff, Fin.ext_iff, val_row h, val_col]
  omega

theorem view_back (h : pos < 24 * 80) : view (pos - 1) m = (view pos m).back := by
  have hrow := val_row (m := m) h
  have hcol := val_col pos m
  have hrow' : (view (pos - 1) m).row.val = _ := val_row (by omega)
  have hcol' := val_col (pos - 1) m
  rw [Term.back]
  split_ifs with hc hr
  · exact Term.ext rfl (Fin.ext (by dsimp only; omega)) (Fin.ext (by dsimp only; omega))
  · exact Term.ext rfl (Fin.ext (by dsimp only; omega)) (Fin.ext (by
      rw [hcol', show ((79 : Fin 80) : ℕ) = 79 from rfl]; omega))
  · obtain rfl : pos = 0 := by omega
    rfl

/-- What the code does to the screen is what the terminal does. -/
structure Shows (m : Ram) (t : Term) (s : Crt) : Prop where
  pos_lt : s.pos < 24 * 80
  view_eq : view s.pos s.ram = t
  framed : Framed m s.ram

theorem Shows.of_framed {t : Term} {s : Crt} {m' : Ram} (hs : Shows m' t s) (h : Framed m m') :
    Shows m t s := ⟨hs.pos_lt, hs.view_eq, fun a ha => (hs.framed a ha).trans (h a ha)⟩

theorem pos_settle (h : pos < 24 * 80) :
    Crt.pos ⟨m, BitVec.ofNat 8 (pos / 256), BitVec.ofNat 8 pos⟩ = pos := by
  rw [Crt.pos, BitVec.toNat_ofNat, BitVec.toNat_ofNat]
  omega

theorem settle_of_lt (h : pos < 24 * 80) : Shows m ((view pos m).set 0x0720) (settle pos m) := by
  rw [settle, if_neg (by omega)]
  refine ⟨(pos_settle h).trans_lt h, ?_, framed_setCell h _⟩
  rw [pos_settle h, view_setCell h]

theorem settle_nextLine (h : pos < 24 * 80) :
    Shows m ((view pos m).nextLine.set 0x0720) (settle (pos + (80 - pos % 80)) m) := by
  have hrow := val_row (m := m) h
  by_cases hlast : pos + (80 - pos % 80) < 24 * 80
  · have hnext : view (pos + (80 - pos % 80)) m = (view pos m).nextLine := by
      have hrow' := val_row (m := m) hlast
      have hcol' := val_col (pos + (80 - pos % 80)) m
      rw [Term.nextLine, dif_pos (by omega)]
      refine Term.ext rfl (Fin.ext (by dsimp only; omega)) (Fin.ext ?_)
      rw [hcol', show ((0 : Fin 80) : ℕ) = 0 from rfl]
      omega
    rw [← hnext]
    exact settle_of_lt hlast
  · -- the cursor was in the last row: the index is `24 * 80`
    have hpos : pos + (80 - pos % 80) = 24 * 80 := by omega
    set m' := memset (addr (23 * 80)) 0 (2 * (24 * 80 - 23 * 80))
      (Runtime.memmove crt (crt + 2 * 80) (2 * 23 * 80) m) with hm'
    have hnext : view (23 * 80) m' = (view pos m).nextLine := by
      rw [Term.nextLine, dif_neg (by omega)]
      refine Term.ext (funext fun r => funext fun c => ?_) (Fin.ext ?_) rfl
      · have hr := r.isLt
        have hc := c.isLt
        rw [view_grid, hm', cell_memset (by omega) (by omega), cell_memmove (by omega)]
        dsimp only
        by_cases hr' : r.val + 1 < 24
        · rw [if_neg (by omega), if_pos (by omega), dif_pos hr', view_grid]
          congr 1
          dsimp only
          omega
        · rw [if_pos (by omega), dif_neg hr']
      · rw [val_row (by omega), hrow]
        omega
    have hs : settle (24 * 80) m = settle (23 * 80) m' := rfl
    rw [hpos, hs, ← hnext]
    refine (settle_of_lt (by omega)).of_framed fun a ha => ?_
    rw [hm', framed_memset (by omega) a ha, framed_memmove a ha]

theorem cgaputc_shows (s : Crt) (h : s.pos < 24 * 80) (c : Word) :
    ∃ s', cgaputc s c = .ok s' ∧ Shows s.ram ((view s.pos s.ram).put c) s' := by
  rw [cgaputc, Term.put]
  split_ifs with hnew hback
  · exact ⟨_, if_neg (by omega), settle_nextLine h⟩
  · refine ⟨_, if_neg (by omega), ?_⟩
    rw [← view_back h]
    exact settle_of_lt (by omega)
  · refine ⟨_, if_neg (by omega), ?_⟩
    have hcol := val_col s.pos (setCell s.pos (glyph c) s.ram)
    rw [← view_setCell h, Term.forward]
    split_ifs with hin
    · have hnext : view (s.pos + 1) (setCell s.pos (glyph c) s.ram) =
          { view s.pos (setCell s.pos (glyph c) s.ram) with col := ⟨_, hin⟩ } := by
        refine Term.ext rfl (Fin.ext ?_) (Fin.ext ?_)
        · rw [val_row (by omega), val_row h]
          omega
        · rw [val_col]
          dsimp only
          omega
      rw [← hnext]
      exact (settle_of_lt (by omega)).of_framed (framed_setCell h _)
    · have hline := settle_nextLine (m := setCell s.pos (glyph c) s.ram) h
      rw [show s.pos + (80 - s.pos % 80) = s.pos + 1 by omega] at hline
      exact hline.of_framed (framed_setCell h _)

/-- The position stays on the screen and the panic is not reached, whatever is written. Nothing
outside of the 24 rows is changed, and the rows are those of the terminal. -/
theorem screen_is_terminal (s : Crt) (h : s.pos < 24 * 80) (cs : List Word) :
    ∃ s', cs.foldlM cgaputc s = .ok s' ∧ s'.pos < 24 * 80 ∧
      view s'.pos s'.ram = cs.foldl Term.put (view s.pos s.ram) ∧ Framed s.ram s'.ram := by
  induction cs generalizing s with
  | nil => exact ⟨s, rfl, h, rfl, fun _ _ => rfl⟩
  | cons c cs ih =>
    obtain ⟨s₁, hs₁, hshows⟩ := cgaputc_shows s h c
    obtain ⟨s', hs', hlt, hview, hframe⟩ := ih s₁ hshows.pos_lt
    refine ⟨s', by rw [List.foldlM_cons, hs₁]; exact hs', hlt, ?_, fun a ha => ?_⟩
    · rw [hview, hshows.view_eq, List.foldl_cons]
    · rw [hframe a ha, hshows.framed a ha]

/-- A character at the end of the last row, and the newline that `BACKSPACE` does not take back. -/
theorem screen_is_terminal_corner :
    ∃ s', [65, newline, backspace].foldlM cgaputc ⟨fun _ => 0, 7, 127⟩ = .ok s' ∧
      s'.pos < 24 * 80 ∧
      view s'.pos s'.ram = [65, newline, backspace].foldl Term.put (view 1919 fun _ => 0) ∧
      Framed (fun _ => 0) s'.ram :=
  screen_is_terminal ⟨fun _ => 0, 7, 127⟩ (by decide) [65, newline, backspace]

end Dave.Screen
