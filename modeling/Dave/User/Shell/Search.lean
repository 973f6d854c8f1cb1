import Dave.User.Shell.Parse
import Mathlib.Data.List.TakeWhile

/-!
# The search path of the shell

`try_exec` looks for a command in the segments of the search path. It cuts a copy of the path into
segments in place, one at a time, and joins each with the command in a buffer of 128 bytes. What
does not fit is cut off, so that a name is executed that nobody has asked for.
-/

namespace Dave.Shell

open List

open Fs (Str)

/-- The characters `/` and `:`. -/
abbrev slash : Byte := 47

@[inherit_doc slash] abbrev colon : Byte := 58

/-- `HELLO_MAXPATH`, and the size of `full`. -/
abbrev maxPath : ℕ := 128

/-! ### Code

Buffers are given by the strings in them. -/

def helloCopy (src : Str) (dstsz : ℕ) : Str := src.take (dstsz - 1)

/-- The path that `path set` stores. -/
def helloSetPath (value : Str) : Str :=
  if value = [] then [98, 105, 110] -- `bin`
  else if maxPath ≤ value.length then value.take (maxPath - 1) else value

/-- `append_exec_path`: the string in `dst`. -/
def appendExecPath (dstsz : ℕ) (pre cmd : Str) : Str :=
  if pre = [] then helloCopy cmd dstsz
  else
    let dst := pre.take (if dstsz ≤ pre.length then dstsz - 1 else pre.length)
    let dst := if dst.getLast? ≠ some slash ∧ dst.length < dstsz - 1 then dst ++ [slash] else dst
    if dst.length < dstsz - 1 then dst ++ helloCopy cmd (dstsz - dst.length) else dst

/-- The loop of `try_exec` over the segments of `pathbuf`: the names that are passed to `exec`,
which fails. -/
def tryLoop (cmd : Str) : ℕ → List Byte → ℕ → Option (List Str)
  | 0, _, _ => none
  | fuel + 1, pathbuf, segment =>
    let stop := segment + ((pathbuf.drop segment).takeWhile fun c => c ≠ 0 ∧ c ≠ colon).length
    let saved := pathbuf.getD stop 0
    let cut := pathbuf.set stop 0
    let full := appendExecPath maxPath (stringAt cut segment) cmd
    let pathbuf := cut.set stop saved
    if pathbuf.getD stop 0 = 0 then some [full]
    else (tryLoop cmd fuel pathbuf (stop + 1)).map (full :: ·)

/-- `try_exec`: the names that are passed to `exec`, which fails. -/
def tryExec (helloPath cmd : Str) : Option (List Str) :=
  if cmd.contains slash then some [cmd]
  else
    let pathbuf := helloCopy helloPath maxPath ++ [0]
    (tryLoop cmd pathbuf.length pathbuf 0).map (· ++ [cmd])

/-! ### Names -/

/-- The name of a command in a segment of the path. -/
def joined (s cmd : Str) : Str :=
  if s = [] then cmd else if s.getLast? = some slash then s ++ cmd else s ++ slash :: cmd

def segments (path : Str) : List Str := path.splitOnP (· = colon)

variable {s cmd pre post rest : Str} {c : Byte}

theorem helloCopy_eq {n : ℕ} (h : cmd.length < n) : helloCopy cmd n = cmd :=
  take_of_length_le (by omega)

theorem append_helloCopy {dst : Str} (h : dst.length + cmd.length < maxPath) :
    (if dst.length < maxPath - 1 then dst ++ helloCopy cmd (maxPath - dst.length) else dst) =
      dst ++ cmd := by
  split_ifs with hroom
  · rw [helloCopy_eq (by omega)]
  · obtain rfl : cmd = [] := eq_nil_of_length_eq_zero (by omega)
    rw [append_nil]

theorem appendExecPath_eq (h : (joined s cmd).length < maxPath) :
    appendExecPath maxPath s cmd = joined s cmd := by
  by_cases hs : s = []
  · rw [joined, if_pos hs] at h ⊢
    rw [appendExecPath, if_pos hs, helloCopy_eq h]
  rw [joined, if_neg hs] at h ⊢
  have hshort {n : ℕ} (hn : s.length + n < maxPath) : ¬ maxPath ≤ s.length := by omega
  by_cases hlast : s.getLast? = some slash
  · rw [if_pos hlast, length_append] at h
    simp only [appendExecPath, if_neg hs, if_neg (hshort h), take_length, hlast, ne_eq,
      not_true_eq_false, false_and, if_false, if_true]
    exact append_helloCopy h
  · rw [if_neg hlast, length_append, length_cons] at h
    have hroom : s.length < maxPath - 1 := by omega
    simp only [appendExecPath, if_neg hs, if_neg (hshort h), take_length, hlast, hroom, ne_eq,
      not_false_eq_true, and_self, if_true, if_false]
    rw [append_helloCopy, append_assoc, singleton_append]
    rw [length_append, length_singleton]
    omega

theorem appendExecPath_length (s cmd : Str) : (appendExecPath maxPath s cmd).length < maxPath := by
  have hmax : maxPath = 128 := rfl
  have hcopy (n : ℕ) : (helloCopy cmd n).length ≤ n - 1 := length_take_le _ _
  by_cases hs : s = []
  · have := hcopy maxPath
    rw [appendExecPath, if_pos hs]
    omega
  have happend (dst : Str) (h : dst.length < maxPath) : (if dst.length < maxPath - 1 then
      dst ++ helloCopy cmd (maxPath - dst.length) else dst).length < maxPath := by
    have := hcopy (maxPath - dst.length)
    split_ifs
    · rw [length_append]
      omega
    · exact h
  rw [appendExecPath, if_neg hs]
  refine happend _ ?_
  have htake : (s.take (if maxPath ≤ s.length then maxPath - 1 else s.length)).length <
      maxPath := by
    rw [length_take]
    split_ifs <;> omega
  generalize s.take _ = dst at htake ⊢
  split_ifs with hroom
  · rw [length_append, length_singleton]
    omega
  · exact htake

theorem tryLoop_round (cmd pre post : Str) (hs : ∀ x ∈ s, x ≠ 0 ∧ x ≠ colon)
    (hc : c = 0 ∨ c = colon) (fuel : ℕ) :
    tryLoop cmd (fuel + 1) (pre ++ s ++ c :: post) pre.length =
      if c = 0 then some [appendExecPath maxPath s cmd]
      else (tryLoop cmd fuel (pre ++ s ++ c :: post) ((pre ++ s).length + 1)).map
        (appendExecPath maxPath s cmd :: ·) := by
  have hstop : ((pre ++ s ++ c :: post).drop pre.length).takeWhile (fun c => c ≠ 0 ∧ c ≠ colon) =
      s := by
    rw [append_assoc, drop_left, takeWhile_append_of_pos (by simpa using hs)]
    rcases hc with rfl | rfl <;> simp
  have hcut : (pre ++ s ++ c :: post).set (pre ++ s).length 0 = pre ++ s ++ 0 :: post := by simp
  have hstring : stringAt (pre ++ s ++ 0 :: post) pre.length = s := by
    rw [stringAt, append_assoc, drop_left,
      takeWhile_append_of_pos (by simpa using fun x hx => (hs x hx).1)]
    simp
  have hback : (pre ++ s ++ 0 :: post).set (pre ++ s).length c = pre ++ s ++ c :: post := by simp
  have hchar : (pre ++ s ++ c :: post).getD (pre ++ s).length 0 = c := by simp
  rw [tryLoop, hstop]
  simp only [← length_append, hchar, hcut, hstring, hback]

theorem tryLoop_eq (cmd pre : Str) (h : ∀ x ∈ rest, x ≠ 0) {fuel : ℕ} (hfuel : rest.length < fuel) :
    tryLoop cmd fuel (pre ++ rest ++ [0]) pre.length =
      some ((segments rest).map (appendExecPath maxPath · cmd)) := by
  -- a round passes a segment and the colon behind it
  induction fuel generalizing pre rest with
  | zero => exact absurd hfuel (Nat.not_lt_zero _)
  | succ fuel ih =>
    have hs : ∀ x ∈ rest.takeWhile (· ≠ colon), x ≠ 0 ∧ x ≠ colon := fun x hx =>
      ⟨h x (takeWhile_subset _ hx), by simpa using mem_takeWhile_imp hx⟩
    have hsplit := takeWhile_append_dropWhile (p := (· ≠ colon)) (l := rest)
    have hnone : ∀ x ∈ rest.takeWhile (· ≠ colon), decide (x = colon) = false := fun x hx =>
      decide_eq_false (hs x hx).2
    cases hd : rest.dropWhile (· ≠ colon) with
    | nil =>
      rw [hd, append_nil] at hsplit
      rw [hsplit] at hs hnone
      rw [tryLoop_round cmd pre [] hs (.inl rfl), if_pos rfl, segments, splitOnP_eq_singleton hnone]
      rfl
    | cons c post =>
      have hc : c = colon := by
        have := head?_dropWhile_not (· ≠ colon) rest
        rw [hd] at this
        simpa using this
      subst hc
      generalize rest.takeWhile (· ≠ colon) = s at hs hsplit hnone
      rw [hd] at hsplit
      subst hsplit
      have hround := tryLoop_round cmd pre (post ++ [0]) hs (.inr rfl) fuel
      rw [if_neg (by decide)] at hround
      have hnext := ih (pre ++ s ++ [colon])
        (fun x hx => h x (mem_append_right _ (.tail _ hx)))
        (by rw [length_append, length_cons] at hfuel; omega)
      simp only [append_assoc, cons_append, nil_append, length_append,
        length_cons, length_nil, Nat.add_assoc, Nat.zero_add] at hround hnext ⊢
      rw [hround, hnext, segments, segments, splitOnP_append_cons_of_forall_mem hnone _ (by simp)]
      rfl

/-- `try_exec` tries the names of the command in the segments of the path, in order, and then the
command itself, exactly if no name is too long. -/
theorem tryExec_names (path cmd : Str) (hpath : ∀ x ∈ path, x ≠ 0) (hne : path ≠ [])
    (hcmd : slash ∉ cmd) (hfits : path.length < maxPath) :
    tryExec (helloSetPath path) cmd = some ((segments path).map (joined · cmd) ++ [cmd]) ↔
      ∀ s ∈ segments path, (joined s cmd).length < maxPath := by
  have hset : helloSetPath path = path := by
    rw [helloSetPath, if_neg hne, if_neg (Nat.not_le_of_lt hfits)]
  have hlen : path.length < (path ++ [0]).length := by simp
  have hloop := tryLoop_eq cmd [] hpath hlen
  rw [tryExec, if_neg (mt List.contains_iff_mem.mp hcmd), hset, helloCopy_eq hfits]
  simp only [nil_append, length_nil] at hloop
  simp only [hloop, Option.map_some, Option.some.injEq, append_cancel_right_eq, map_inj_left]
  exact ⟨fun h s hs => h s hs ▸ appendExecPath_length s cmd, fun h s hs =>
    appendExecPath_eq (h s hs)⟩

/-- The path `a/::b` and the command `c`. -/
theorem tryExec_names_three : tryExec (helloSetPath [97, 47, 58, 58, 98]) [99] =
    some ([[97, 47, 99], [99], [98, 47, 99]] ++ [[99]]) :=
  (tryExec_names [97, 47, 58, 58, 98] [99] (by decide) (by decide) (by decide) (by decide)).mpr
    (by decide)

/-- With a path of 60 characters and a command of 80, both of which fit into a line of the shell,
the name that is executed lacks the last 14 characters of the command. -/
theorem tryExec_shortened :
    tryExec (helloSetPath (replicate 60 97)) (replicate 80 98) =
      some [replicate 60 97 ++ slash :: replicate 66 98, replicate 80 98] := by
  decide +kernel

end Dave.Shell
