import Mathlib.Data.List.Nodup
import Mathlib.Logic.Function.Basic

/-!
# Redo logs

A redo log on a store `A → B` keeps copies of blocks in slots `slot 0, slot 1, …` and a list of
home addresses. The store *stands for* the store in which every home address holds its copy
(`RedoLog.replay`); copying the slots home one by one does not change what the store stands for
(`RedoLog.replay_install`), and once all of them are home the list may be dropped
(`RedoLog.replay_eq_of_installed`). So whatever prefix of the copies was made, repeating all of
them leads to the same store.

`RedoLog.writes` is the effect of a list of writes on a store.
-/

namespace RedoLog

variable {A B : Type*} [DecidableEq A]

/-! ### Lists of writes -/

/-- The store after the writes of a list, in order. -/
def writes (ws : List (A × B)) (d : A → B) : A → B :=
  ws.foldl (fun d w => Function.update d w.1 w.2) d

@[simp] theorem writes_nil (d : A → B) : writes [] d = d := rfl

theorem writes_append (ws vs : List (A × B)) (d : A → B) :
    writes (ws ++ vs) d = writes vs (writes ws d) :=
  List.foldl_append

theorem writes_concat (ws : List (A × B)) (a : A) (b : B) (d : A → B) :
    writes (ws ++ [(a, b)]) d = Function.update (writes ws d) a b := by
  rw [writes_append]
  rfl

/-! ### Replay -/

/-- What a store with a redo log stands for: every home address of the list holds the copy in its
slot, every other address what it holds. -/
def replay (slot : ℕ → A) (homes : List A) (d : A → B) : A → B := fun a =>
  if a ∈ homes then d (slot (homes.idxOf a)) else d a

variable {slot : ℕ → A} {homes : List A} {d d' : A → B}

@[simp] theorem replay_nil : replay slot [] d = d := by
  funext a
  simp [replay]

theorem replay_of_notMem {a : A} (h : a ∉ homes) : replay slot homes d a = d a := by
  simp [replay, h]

/-- A home address stands for the copy in its slot. -/
theorem replay_getElem (hn : homes.Nodup) {i : ℕ} (hi : i < homes.length) :
    replay slot homes d (homes.get ⟨i, hi⟩) = d (slot i) := by
  simp [replay, hn.idxOf_getElem]

/-- Copying a slot to its home does not change what the store stands for. -/
theorem replay_install {i : ℕ} (hi : i < homes.length)
    (hs : ∀ j < homes.length, slot j ≠ homes.get ⟨i, hi⟩) :
    replay slot homes (Function.update d (homes.get ⟨i, hi⟩) (d (slot i))) =
      replay slot homes d := by
  funext a
  unfold replay
  split_ifs with ha
  · rw [Function.update_of_ne (hs _ (List.idxOf_lt_length_of_mem ha))]
  · have hne : a ≠ homes.get ⟨i, hi⟩ := fun h => ha (h ▸ List.get_mem _ _)
    rw [Function.update_of_ne hne]

/-- Once every slot has been copied home the store stands for itself. -/
theorem replay_eq_of_installed
    (h : ∀ (i : ℕ) (hi : i < homes.length), d (homes.get ⟨i, hi⟩) = d (slot i)) :
    replay slot homes d = d := by
  funext a
  unfold replay
  split_ifs with ha
  · have hlt := List.idxOf_lt_length_of_mem ha
    rw [← h _ hlt, List.get_eq_getElem, List.getElem_idxOf]
  · rfl

end RedoLog
