import Dave.Block
import Mathlib.Data.List.Basic

/-!
# The MP configuration table

`mpinit` goes over the entries of the table that the firmware has left, to find the processors. The
`break` of the `default` case leaves the `switch` only: at an entry of an unknown type the cursor
stays where it is, and the loop does not end. If all types are known it ends.
-/

namespace Dave.Mp

open List

abbrev nCpu : ℕ := 8

/-- The memory from the beginning of the table on. -/
abbrev Table : Type := ℕ → Byte

/-- The size of `struct mpconf`. -/
abbrev confSize : ℕ := 44

/-- The types of entries with a processor and with an I/O APIC. -/
abbrev mpProc : Byte := 0

@[inherit_doc mpProc] abbrev mpIoapic : Byte := 2

/-- `conf->length`. -/
def length (t : Table) : ℕ := (t 4).toNat + 256 * (t 5).toNat

def sum (t : Table) (len : ℕ) : Byte := (range len).foldl (fun s i => s + t i) 0

/-- The tests of `mpconfig`: the signature `PCMP`, the version and the checksum. -/
def mpconfig (t : Table) : Bool :=
  (range 4).map t = [80, 67, 77, 80] ∧ (t 6 = 1 ∨ t 6 = 4) ∧ sum t (length t) = 0

inductive Panic where
  /-- `Expect to run on an SMP` -/
  | expectSmp
  /-- `Didn't find a suitable machine` -/
  | notSuitable

/-- The variables of the loop, with `p` relative to the table; `cpus` holds the identifiers of
`cpus[0], …, cpus[ncpu - 1]`. -/
structure Scan where
  p : ℕ
  cpus : List Byte
  ioapicid : Byte
  ismp : Bool

/-- The `switch`. -/
def step (t : Table) (s : Scan) : Scan :=
  if t s.p = mpProc then
    { s with
      cpus := if s.cpus.length < nCpu then s.cpus ++ [t (s.p + 1)] else s.cpus
      p := s.p + 20 }
  else if t s.p = mpIoapic then { s with ioapicid := t (s.p + 1), p := s.p + 8 }
  else if t s.p = 1 ∨ t s.p = 3 ∨ t s.p = 4 then { s with p := s.p + 8 }
  else { s with ismp := false }

/-- The loop, for at most a number of rounds. -/
def loop (t : Table) (e : ℕ) : ℕ → Scan → Option Scan
  | 0, _ => none
  | fuel + 1, s => if s.p < e then loop t e fuel (step t s) else some s

/-- `mpinit`, if its loop ends after at most a number of rounds. -/
def mpinit (t : Table) (ioapicid : Byte) (fuel : ℕ) : Option (Except Panic Scan) :=
  if mpconfig t then
    (loop t (length t) fuel ⟨confSize, [], ioapicid, true⟩).map fun s =>
      if s.ismp then .ok s else .error .notSuitable
  else some (.error .expectSmp)

/-! ### Entries -/

/-- The size of an entry. -/
def size (type : Byte) : ℕ := if type = mpProc then 20 else 8

/-- The places of the entries from `p` to `e`, which all have known types. -/
inductive Entries (t : Table) (e : ℕ) : ℕ → List ℕ → Prop where
  | nil {p : ℕ} (h : e ≤ p) : Entries t e p []
  | cons {p : ℕ} {ps : List ℕ} (h : p < e) (htype : (t p).toNat ≤ 4)
    (hrest : Entries t e (p + size (t p)) ps) : Entries t e p (p :: ps)

/-- The identifiers in the entries with a processor. -/
def apicids (t : Table) (ps : List ℕ) : List Byte :=
  (ps.filter fun p => t p = mpProc).map fun p => t (p + 1)

variable {t : Table} {e : ℕ} {s : Scan}

theorem step_of_known (htype : (t s.p).toNat ≤ 4) (hcpus : s.cpus.length ≤ nCpu) :
    (step t s).p = s.p + size (t s.p) ∧ (step t s).ismp = s.ismp ∧
      (step t s).cpus = (s.cpus ++ apicids t [s.p]).take nCpu := by
  by_cases hproc : t s.p = mpProc
  · refine ⟨by simp [step, size, hproc], by simp [step, hproc], ?_⟩
    simp only [step, apicids, hproc, if_true, filter_cons, decide_true, filter_nil,
      map_cons, map_nil]
    split_ifs with hlt
    · rw [take_of_length_le]
      rw [length_append, length_singleton]
      exact hlt
    · have hfull : s.cpus.length = nCpu := le_antisymm hcpus (Nat.le_of_not_lt hlt)
      rw [← hfull, take_left]
  · have hsame : (s.cpus ++ apicids t [s.p]).take nCpu = s.cpus := by
      rw [apicids, filter_singleton, decide_eq_false hproc]
      simp [take_of_length_le hcpus]
    rw [hsame, size, if_neg hproc, step, if_neg hproc]
    split_ifs with hio hknown
    · exact ⟨rfl, rfl, rfl⟩
    · exact ⟨rfl, rfl, rfl⟩
    · exfalso
      revert hproc hio hknown htype
      generalize t s.p = c
      revert c
      decide

theorem take_take_append {α : Type} (n : ℕ) (l r : List α) :
    (l.take n ++ r).take n = (l ++ r).take n := by
  rw [take_append, take_append, take_take, min_self, length_take]
  congr 2
  omega

theorem loop_of_entries {ps : List ℕ} (h : Entries t e s.p ps) (hcpus : s.cpus.length ≤ nCpu)
    {fuel : ℕ} (hfuel : ps.length < fuel) :
    ∃ s', loop t e fuel s = some s' ∧ s'.ismp = s.ismp ∧
      s'.cpus = (s.cpus ++ apicids t ps).take nCpu := by
  generalize hp : s.p = p at h
  induction h generalizing s fuel with
  | nil hle =>
    obtain ⟨fuel, rfl⟩ := Nat.exists_eq_succ_of_ne_zero (Nat.ne_of_gt hfuel)
    refine ⟨s, by rw [loop, if_neg (by omega)], rfl, ?_⟩
    simp [apicids, take_of_length_le hcpus]
  | @cons p ps hlt htype _ ih =>
    subst hp
    obtain ⟨fuel, rfl⟩ := Nat.exists_eq_succ_of_ne_zero (Nat.ne_of_gt (Nat.zero_lt_of_lt hfuel))
    obtain ⟨hnext, hismp, hstep⟩ := step_of_known htype hcpus
    obtain ⟨s', hs', hismp', hcpus'⟩ := ih (s := step t s)
      (by rw [hstep]; exact length_take_le _ _) (Nat.lt_of_succ_lt_succ hfuel) hnext
    refine ⟨s', by rw [loop, if_pos hlt, hs'], hismp'.trans hismp, ?_⟩
    have hids : apicids t (s.p :: ps) = apicids t [s.p] ++ apicids t ps := by
      rw [apicids, apicids, apicids, ← map_append, ← filter_append, singleton_append]
    rw [hcpus', hstep, take_take_append, hids, append_assoc]

theorem loop_of_unknown (hlt : s.p < e) (htype : 4 < (t s.p).toNat) (fuel : ℕ) :
    loop t e fuel s = none := by
  induction fuel generalizing s with
  | zero => rfl
  | succ fuel ih =>
    have hne (c : Byte) (hc : c.toNat ≤ 4) : t s.p ≠ c := fun h => by rw [h] at htype; omega
    have hstep : step t s = { s with ismp := false } := by
      rw [step, if_neg (hne _ (by decide)), if_neg (hne _ (by decide)), if_neg]
      exact not_or.mpr ⟨hne 1 (by decide), not_or.mpr ⟨hne 3 (by decide), hne 4 (by decide)⟩⟩
    rw [loop, if_pos hlt, hstep]
    exact ih hlt htype

theorem entries_of_loop {fuel : ℕ} {s' : Scan} (hcpus : s.cpus.length ≤ nCpu)
    (h : loop t e fuel s = some s') : ∃ ps, Entries t e s.p ps := by
  induction fuel generalizing s with
  | zero => cases h
  | succ fuel ih =>
    rw [loop] at h
    split_ifs at h with hlt
    · by_cases htype : (t s.p).toNat ≤ 4
      · obtain ⟨hnext, -, hstep⟩ := step_of_known htype hcpus
        obtain ⟨ps, hps⟩ := ih (by rw [hstep]; exact length_take_le _ _) h
        exact ⟨s.p :: ps, .cons hlt htype (hnext ▸ hps)⟩
      · have hnone := loop_of_unknown hlt (Nat.lt_of_not_le htype) (fuel + 1)
        rw [loop, if_pos hlt, h] at hnone
        cases hnone
    · exact ⟨[], .nil (Nat.le_of_not_lt hlt)⟩

theorem mpinit_of_entries (haccept : mpconfig t = true) {ps : List ℕ} {fuel : ℕ}
    (h : Entries t (length t) confSize ps) (hfuel : ps.length < fuel) (ioapicid : Byte) :
    ∃ s, mpinit t ioapicid fuel = some (.ok s) ∧ s.cpus.length ≤ nCpu ∧
      s.cpus = (apicids t ps).take nCpu := by
  obtain ⟨s, hs, hismp, hcpus⟩ := loop_of_entries (s := ⟨confSize, [], ioapicid, true⟩) h
    (Nat.zero_le _) hfuel
  refine ⟨s, ?_, ?_, hcpus⟩
  · rw [mpinit, if_pos haccept, hs, Option.map_some, if_pos hismp]
  · rw [hcpus]
    exact length_take_le _ _

/-- For a table that `mpconfig` accepts, `mpinit` ends exactly if all entries that the scan meets
have known types. Then it has found the processors of the first entries for processors, in their
order. -/
theorem mpinit_ends (t : Table) (ioapicid : Byte) (haccept : mpconfig t = true) :
    ((∃ n, ∀ fuel, n ≤ fuel → ∃ r, mpinit t ioapicid fuel = some r) ↔
      ∃ ps, Entries t (length t) confSize ps) ∧
    ∀ ps, Entries t (length t) confSize ps → ∃ n, ∀ fuel, n ≤ fuel →
      ∃ s, mpinit t ioapicid fuel = some (.ok s) ∧ s.cpus.length ≤ nCpu ∧
        s.cpus = (apicids t ps).take nCpu := by
  refine ⟨⟨fun ⟨n, hn⟩ => ?_, fun ⟨ps, hps⟩ => ⟨ps.length + 1, fun fuel hfuel => ?_⟩⟩,
    fun ps hps => ⟨ps.length + 1, fun fuel hfuel => mpinit_of_entries haccept hps hfuel _⟩⟩
  · obtain ⟨r, hr⟩ := hn n le_rfl
    rw [mpinit, if_pos haccept] at hr
    obtain ⟨s, hs, -⟩ := Option.map_eq_some_iff.mp hr
    exact entries_of_loop (Nat.zero_le _) hs
  · obtain ⟨s, hs, -⟩ := mpinit_of_entries haccept hps hfuel ioapicid
    exact ⟨.ok s, hs⟩

/-- A table of 80 bytes, with a processor, an entry of the given type and an I/O APIC. -/
def sample (type checksum : Byte) : Table := fun i =>
  (([80, 67, 77, 80, 80, 0, 4, checksum] ++ replicate 36 0 ++ [mpProc, 7] ++
    replicate 18 0 ++ [type] ++ replicate 7 0 ++ [mpIoapic, 1] : List Byte)[i]?).getD 0

theorem mpinit_ends_bus :
    ∃ n, ∀ fuel, n ≤ fuel → ∃ s, mpinit (sample 1 113) 0 fuel = some (.ok s) ∧
      s.cpus.length ≤ nCpu ∧ s.cpus = (apicids (sample 1 113) [44, 64, 72]).take nCpu :=
  (mpinit_ends (sample 1 113) 0 (by decide +kernel)).2 [44, 64, 72]
    (.cons (by decide) (by decide) (.cons (by decide) (by decide) (.cons (by decide) (by decide)
      (.nil (by decide)))))

/-- With an entry of type 5 in the place of the bus, the table is accepted, and `mpinit` does not
end. -/
theorem mpinit_stuck :
    mpconfig (sample 5 109) = true ∧ ∀ fuel, mpinit (sample 5 109) 0 fuel = none := by
  refine ⟨by decide +kernel, fun fuel => ?_⟩
  have haccept : mpconfig (sample 5 109) = true := by decide +kernel
  rw [mpinit, if_pos haccept, Option.map_eq_none_iff]
  cases fuel with
  | zero => rfl
  | succ fuel =>
    rw [loop, if_pos (by decide)]
    exact loop_of_unknown (by decide) (by decide) fuel

end Dave.Mp
