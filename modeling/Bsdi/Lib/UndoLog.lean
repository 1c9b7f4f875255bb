import Mathlib.Data.List.Basic

/-!
# Undo logs

A store is a function from cells to values. A log is a stack of cells with the values they had when
they were put on it; taking the log back stores these values, the last one first, and logs what it
overwrites.
-/

namespace Bsdi.Lib

variable {κ α : Type*} [DecidableEq κ]

/-- The store after a log is taken back. -/
def unwind (mem : κ → α) : List (κ × α) → κ → α
  | [] => mem
  | (c, v) :: log => unwind (Function.update mem c v) log

/-- A log is taken back, and what it overwrites is put on another one. -/
def rewind (mem : κ → α) : List (κ × α) → List (κ × α) → (κ → α) × List (κ × α)
  | [], back => (mem, back)
  | (c, v) :: log, back => rewind (Function.update mem c v) log ((c, mem c) :: back)

variable {mem mem' : κ → α} {log back : List (κ × α)} {c d : κ} {v : α}

/-- A cell that is logged and then changed. -/
@[simp]
theorem unwind_cons_update : unwind (Function.update mem c v) ((c, mem c) :: log) = unwind mem log := by
  rw [unwind, Function.update_idem, Function.update_eq_self]

/-- Logging a cell changes nothing. -/
@[simp]
theorem unwind_cons_self : unwind mem ((c, mem c) :: log) = unwind mem log := by
  rw [unwind, Function.update_eq_self]

/-- The value of a cell comes from that cell or from the log. -/
theorem unwind_congr (h : mem' c = mem c) : unwind mem' log c = unwind mem log c := by
  induction log generalizing mem mem' with
  | nil => exact h
  | cons x log ih =>
    apply ih
    by_cases hc : c = x.1
    · subst hc
      simp
    · rw [Function.update_of_ne hc, Function.update_of_ne hc, h]

theorem unwind_update_of_mem (h : c ∈ log.map Prod.fst) :
    unwind (Function.update mem c v) log = unwind mem log := by
  induction log generalizing mem with
  | nil => simp at h
  | cons x log ih =>
    rw [unwind, unwind]
    by_cases hc : c = x.1
    · subst hc
      rw [Function.update_idem]
    · rw [Function.update_comm hc]
      exact ih (by simpa [hc] using h)

theorem unwind_update_of_ne (h : d ≠ c) : unwind (Function.update mem c v) log d = unwind mem log d :=
  unwind_congr (Function.update_of_ne h _ _)

@[simp]
theorem rewind_fst : (rewind mem log back).1 = unwind mem log := by
  induction log generalizing mem back with
  | nil => rfl
  | cons x log ih => exact ih

/-- Taking back what was logged while a log was taken back. -/
theorem rewind_rewind (mem : κ → α) (log back acc : List (κ × α)) :
    rewind (rewind mem log back).1 (rewind mem log back).2 acc = rewind mem back (log ++ acc) := by
  induction log generalizing mem back acc with
  | nil => rfl
  | cons x log ih =>
    rw [rewind, ih, rewind, Function.update_idem, Function.update_eq_self, Function.update_self]
    rfl

end Bsdi.Lib
