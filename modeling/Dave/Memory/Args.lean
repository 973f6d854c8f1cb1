import Dave.Memory.Paging

/-!
# The arguments of system calls

The arguments of a system call are on the stack of the program, and the kernel reads them through
the registers and addresses that the program gives it. `fetchint`, `fetchstr` and the functions over
them compare every address with the size of the process first, in 32-bit arithmetic.

The sums cannot wrap around unnoticed, because the first comparison bounds the address by a size
that is below `KERNBASE`.
-/

namespace Dave.Memory

/-! ### The code -/

/-- The process that has made a system call: its size, its stack pointer and what the kernel finds
at the addresses. -/
structure Caller where
  sz : Word
  esp : Word
  mem : Word → Byte

/-- `*(int*)addr`. -/
def Caller.int (u : Caller) (addr : Word) : Word :=
  u.mem (addr + 3) ++ u.mem (addr + 2) ++ u.mem (addr + 1) ++ u.mem addr

/-- Fetch the int at `addr`. As in the functions below, `none` stands for a return value of -1. -/
def fetchint (u : Caller) (addr : Word) : Option Word :=
  if u.sz ≤ addr ∨ u.sz < addr + 4 then none else some (u.int addr)

/-- The loop of `fetchstr`, which stops at `ep = sz`. -/
def fetchstrLoop (u : Caller) (pp : Word) : ℕ → Word → Option ℤ
  | 0, _ => none
  | fuel + 1, s =>
    if s < u.sz then
      if u.mem s = 0 then some (s - pp).toInt else fetchstrLoop u pp fuel (s + 1)
    else none

/-- Fetch the string at `addr`: a pointer to it, and its length. -/
def fetchstr (u : Caller) (addr : Word) : Option (Word × ℤ) :=
  if u.sz ≤ addr then none
  else (fetchstrLoop u addr (u.sz - addr).toNat addr).map fun k => (addr, k)

def argint (u : Caller) (n : Word) : Option Word := fetchint u (u.esp + 4 + 4 * n)

/-- Fetch argument `n` as a pointer to `size` bytes. -/
def argptr (u : Caller) (n size : Word) : Option Word :=
  match argint u n with
  | none => none
  | some i => if size.toInt < 0 ∨ u.sz ≤ i ∨ u.sz < i + size then none else some i

def argstr (u : Caller) (n : Word) : Option (Word × ℤ) :=
  match argint u n with
  | none => none
  | some addr => fetchstr u addr

def maxArg : ℕ := 32

/-- The loop of `sys_exec` over the pointers at `uargv`. -/
def sysExecLoop (u : Caller) (uargv : Word) : ℕ → ℕ → (ℕ → Word) → Option (ℕ → Word)
  | 0, _, _ => none
  | fuel + 1, i, argv =>
    if maxArg ≤ i then none
    else
      match fetchint u (uargv + 4 * BitVec.ofNat 32 i) with
      | none => none
      | some uarg =>
        if uarg = 0 then some (Function.update argv i 0)
        else
          match fetchstr u uarg with
          | none => none
          | some (pp, k) =>
            if k < 0 then none else sysExecLoop u uargv fuel (i + 1) (Function.update argv i pp)

/-- What `sys_exec` passes to `exec`: the path and the array of arguments. -/
def sysExec (u : Caller) : Option (Word × (ℕ → Word)) :=
  match argstr u 0 with
  | none => none
  | some (path, k) =>
    if k < 0 then none
    else
      match argint u 1 with
      | none => none
      | some uargv => (sysExecLoop u uargv (maxArg + 1) 0 fun _ => 0).map fun argv => (path, argv)

/-! ### What is let through -/

/-- There is a string of length `k` at `pp`, with its terminator, in the process. -/
structure Caller.IsString (u : Caller) (pp : Word) (k : ℤ) : Prop where
  nonneg : 0 ≤ k
  lt : (pp.toNat : ℤ) + k < u.sz.toNat
  nul : u.mem (pp + BitVec.ofInt 32 k) = 0
  ne_nul : ∀ j : ℕ, (j : ℤ) < k → u.mem (pp + BitVec.ofNat 32 j) ≠ 0

section Sound

variable {u : Caller} (hsz : u.sz.toNat < kernBase)

include hsz

/-- What `fetchint` accepts lies within the process. -/
theorem fetchint_sound {addr v : Word} (h : fetchint u addr = some v) :
    addr.toNat + 4 ≤ u.sz.toNat ∧ v = u.int addr := by
  rw [fetchint] at h
  split at h
  · cases h
  · rename_i hn
    rw [not_or, BitVec.not_le, BitVec.not_lt, BitVec.lt_def, BitVec.le_def, BitVec.toNat_add] at hn
    have hfour : (4 : Word).toNat = 4 := rfl
    simp only [kernBase] at hsz
    cases h
    exact ⟨by omega, rfl⟩

/-- What `argptr` accepts lies within the process. -/
theorem argptr_sound {n size pp : Word} (h : argptr u n size = some pp) :
    0 ≤ size.toInt ∧ (pp.toNat : ℤ) + size.toInt ≤ u.sz.toNat := by
  rw [argptr] at h
  split at h
  · cases h
  · split at h
    · cases h
    · rename_i hn
      cases h
      rw [not_or, not_or, BitVec.not_le, BitVec.not_lt, BitVec.lt_def, BitVec.le_def,
        BitVec.toNat_add] at hn
      have hsize := BitVec.toInt_eq_toNat_cond size
      simp only [kernBase] at hsz
      split at hsize <;> omega

/-- The bytes before the current one are not zero. -/
theorem fetchstrLoop_sound {pp : Word} {k : ℤ} {fuel i : ℕ} (hlt : pp.toNat + i < 2 ^ 32)
    (hne : ∀ j < i, u.mem (pp + BitVec.ofNat 32 j) ≠ 0)
    (h : fetchstrLoop u pp fuel (pp + BitVec.ofNat 32 i) = some k) : u.IsString pp k := by
  induction fuel generalizing i with
  | zero => cases h
  | succ fuel ih =>
    have hofNat : (BitVec.ofNat 32 i).toNat = i := by
      rw [BitVec.toNat_ofNat]
      omega
    have hadd : (pp + BitVec.ofNat 32 i).toNat = pp.toNat + i := by
      rw [BitVec.toNat_add, hofNat]
      omega
    rw [fetchstrLoop] at h
    split at h
    · rename_i hs
      rw [BitVec.lt_def, hadd] at hs
      simp only [kernBase] at hsz
      split at h
      · rename_i hnul
        have hk : k = i := by
          have hsub : pp + BitVec.ofNat 32 i - pp = BitVec.ofNat 32 i := by
            rw [BitVec.add_comm, BitVec.add_sub_cancel]
          rw [← Option.some.inj h, hsub, BitVec.toInt_eq_toNat_of_lt (by omega), hofNat]
        subst hk
        exact ⟨by omega, by omega, by rwa [BitVec.ofInt_natCast], fun j hj => hne j (by omega)⟩
      · rename_i hnz
        have hsucc : BitVec.ofNat 32 (i + 1) = BitVec.ofNat 32 i + 1 := BitVec.ofNat_add i 1
        rw [BitVec.add_assoc, ← hsucc] at h
        refine ih (by omega) (fun j hj => ?_) h
        rcases Nat.lt_succ_iff_lt_or_eq.mp hj with hj | rfl
        · exact hne j hj
        · exact hnz
    · cases h

theorem fetchstr_sound {addr pp : Word} {k : ℤ} (h : fetchstr u addr = some (pp, k)) :
    u.IsString pp k := by
  rw [fetchstr] at h
  split at h
  · cases h
  · obtain ⟨k', hk', heq⟩ := Option.map_eq_some_iff.mp h
    cases heq
    have hstart : fetchstrLoop u addr (u.sz - addr).toNat (addr + BitVec.ofNat 32 0) = some k := by
      rwa [BitVec.add_zero]
    exact fetchstrLoop_sound hsz addr.isLt (fun j hj => absurd hj (Nat.not_lt_zero j)) hstart

/-- What `argstr` accepts is a string within the process. -/
theorem argstr_sound {n pp : Word} {k : ℤ} (h : argstr u n = some (pp, k)) : u.IsString pp k := by
  rw [argstr] at h
  split at h
  · cases h
  · exact fetchstr_sound hsz h

/-- The strings of an array of arguments are in the process, up to a null pointer. -/
def Caller.IsArgs (u : Caller) (argv : ℕ → Word) : Prop :=
  ∃ i < maxArg, (∀ j, i ≤ j → argv j = 0) ∧ ∀ j < i, argv j ≠ 0 ∧ ∃ k, u.IsString (argv j) k

/-- The arguments fetched so far are strings, and the others are null. -/
theorem sysExecLoop_sound {uargv : Word} {fuel i : ℕ} {argv argv' : ℕ → Word}
    (hnull : ∀ j, i ≤ j → argv j = 0) (hstr : ∀ j < i, argv j ≠ 0 ∧ ∃ k, u.IsString (argv j) k)
    (h : sysExecLoop u uargv fuel i argv = some argv') : u.IsArgs argv' := by
  induction fuel generalizing i argv with
  | zero => cases h
  | succ fuel ih =>
    rw [sysExecLoop] at h
    split at h
    · cases h
    · rename_i hi
      split at h
      · cases h
      · rename_i uarg _
        split at h
        · rw [Function.update_eq_self_iff.mpr (hnull i le_rfl).symm] at h
          cases h
          exact ⟨i, by omega, hnull, hstr⟩
        · rename_i hne
          split at h
          · cases h
          · rename_i pp k hfetch
            split at h
            · cases h
            · have hpp : pp = uarg := by
                rw [fetchstr] at hfetch
                split at hfetch
                · cases hfetch
                · obtain ⟨_, _, heq⟩ := Option.map_eq_some_iff.mp hfetch
                  cases heq
                  rfl
              refine ih (fun j hj => ?_) (fun j hj => ?_) h
              · rw [Function.update_of_ne (by omega)]
                exact hnull j (by omega)
              · rcases Nat.lt_succ_iff_lt_or_eq.mp hj with hj | rfl
                · rw [Function.update_of_ne (by omega)]
                  exact hstr j hj
                · rw [Function.update_self]
                  exact ⟨hpp ▸ hne, k, fetchstr_sound hsz hfetch⟩

theorem sysExec_sound {path : Word} {argv : ℕ → Word} (h : sysExec u = some (path, argv)) :
    (∃ k, u.IsString path k) ∧ u.IsArgs argv := by
  rw [sysExec] at h
  split at h
  · cases h
  · rename_i hpath
    split at h
    · cases h
    · split at h
      · cases h
      · obtain ⟨argv', hloop, heq⟩ := Option.map_eq_some_iff.mp h
        cases heq
        exact ⟨⟨_, argstr_sound hsz hpath⟩,
          sysExecLoop_sound hsz (fun _ _ => rfl) (fun j hj => by omega) hloop⟩

/-- Whatever the registers and the memory of the process are, the addresses that the functions let
through are in it, as numbers: the bytes that `argptr` and `fetchint` check, the strings up to and
with their terminator, and the arguments that `sys_exec` collects. -/
theorem arguments_sound :
    (∀ n size pp, argptr u n size = some pp →
      0 ≤ size.toInt ∧ (pp.toNat : ℤ) + size.toInt ≤ u.sz.toNat) ∧
    (∀ addr v, fetchint u addr = some v → addr.toNat + 4 ≤ u.sz.toNat ∧ v = u.int addr) ∧
    (∀ n pp k, argstr u n = some (pp, k) → u.IsString pp k) ∧
    (∀ path argv, sysExec u = some (path, argv) →
      (∃ k, u.IsString path k) ∧ u.IsArgs argv) :=
  ⟨fun _ _ _ => argptr_sound hsz, fun _ _ => fetchint_sound hsz, fun _ _ _ => argstr_sound hsz,
    fun _ _ => sysExec_sound hsz⟩

end Sound

/-- A process of one page whose stack has two pointers to the empty string at address 64, followed
by the array `[64, 0]` at address 32. -/
def oneCaller : Caller where
  sz := 4096
  esp := 0
  mem a := if a = 4 then 64 else if a = 8 then 32 else if a = 32 then 64 else 0

theorem arguments_sound_oneCaller :
    oneCaller.sz.toNat < kernBase ∧ argptr oneCaller 0 4032 = some 64 ∧
    argstr oneCaller 0 = some (64, 0) ∧
    (∃ argv, sysExec oneCaller = some (64, argv) ∧ argv 0 = 64 ∧ oneCaller.IsArgs argv) ∧
    (∀ n size pp, argptr oneCaller n size = some pp →
      0 ≤ size.toInt ∧ (pp.toNat : ℤ) + size.toInt ≤ oneCaller.sz.toNat) := by
  have hsz : oneCaller.sz.toNat < kernBase := by decide
  have hexec : ∃ argv, sysExec oneCaller = some (64, argv) ∧ argv 0 = 64 :=
    ⟨_, rfl, rfl⟩
  obtain ⟨argv, hargv, hzero⟩ := hexec
  exact ⟨hsz, by decide +kernel, by decide +kernel,
    ⟨argv, hargv, hzero, ((arguments_sound hsz).2.2.2 _ _ hargv).2⟩, (arguments_sound hsz).1⟩

end Dave.Memory
