import Bsdi.Ed.Buffer

/-!
# What the undo stack keeps

A command may store to a cell when the cell is on the undo stack or belongs to a line that did not
exist when the command began. Then taking the stack back gives the values that the old cells had.
-/

namespace Bsdi.Ed

open Bsdi.Lib

def Cell.Old (n : Nat) : Cell → Prop
  | .above l => l < n
  | .below l => l < n
  | .mark _ => True

def Cell.Within (n : Nat) (B : List Line) : Cell → Prop
  | .below l => l ∈ B ∨ n ≤ l
  | _ => True

/-- What a command keeps, for the lines there were when it began, where the list has those of the
buffer. -/
structure Kept (n : Nat) (B : List Line) (e e' : Editor) : Prop where
  logs : ∀ c : Cell, c.Old n → unwind e'.mem e'.uStk c = unwind e.mem e.uStk c
  frame : ∀ l < n, l ∉ B → e'.mem (.below l) = e.mem (.below l)
  handle : ∀ l < n, e'.handle l = e.handle l
  uTop : e'.uTop = e.uTop
  uBottom : e'.uBottom = e.uBottom
  uCurrent : e'.uCurrent = e.uCurrent
  oldDStk : e'.oldDStk = e.oldDStk
  freed : e'.freed = e.freed
  fresh : e.fresh ≤ e'.fresh

structure Marked (e e' : Editor) : Prop where
  eq : e' = { e with mem := e'.mem, uStk := e'.uStk }
  links : SameLinks e.mem e'.mem
  logs : unwind e'.mem e'.uStk = unwind e.mem e.uStk
  pushed : ∃ log : List (Cell × Option Line), (∀ x ∈ log, ∃ i, x.1 = .mark i) ∧
    e'.uStk = log ++ e.uStk

variable {e e' e'' : Editor} {n : Nat} {B : List Line} {c : Cell}

theorem newLine_mem_old {k : Nat} {p q : Option Line} (hn : n ≤ e.fresh) (hc : c.Old n) :
    (e.newLine k p q).mem c = e.mem c := by
  have hb : c ≠ .below e.fresh := by
    rintro rfl
    exact absurd hc (Nat.not_lt.2 hn)
  have ha : c ≠ .above e.fresh := by
    rintro rfl
    exact absurd hc (Nat.not_lt.2 hn)
  simp [Editor.newLine, hb, ha]

namespace Kept

theorem refl (e : Editor) : Kept n B e e :=
  ⟨fun _ _ => rfl, fun _ _ _ => rfl, fun _ _ => rfl, rfl, rfl, rfl, rfl, rfl, Nat.le_refl _⟩

theorem trans (h : Kept n B e e') (h' : Kept n B e' e'') : Kept n B e e'' where
  logs c hc := (h'.logs c hc).trans (h.logs c hc)
  frame l hl hB := (h'.frame l hl hB).trans (h.frame l hl hB)
  handle l hl := (h'.handle l hl).trans (h.handle l hl)
  uTop := h'.uTop.trans h.uTop
  uBottom := h'.uBottom.trans h.uBottom
  uCurrent := h'.uCurrent.trans h.uCurrent
  oldDStk := h'.oldDStk.trans h.oldDStk
  freed := h'.freed.trans h.freed
  fresh := Nat.le_trans h.fresh h'.fresh

theorem ends (h : Kept n B e e') (top bottom current : Option Line) (dStk : List (Line × Line)) :
    Kept n B e { e' with top, bottom, current, dStk } :=
  ⟨h.logs, h.frame, h.handle, h.uTop, h.uBottom, h.uCurrent, h.oldDStk, h.freed, h.fresh⟩

theorem uAddStk (h : Kept n B e e') (c : Cell) : Kept n B e (e'.uAddStk c) where
  logs d hd := by
    rw [← h.logs d hd, Editor.uAddStk, unwind_cons_self]
  frame := h.frame
  handle := h.handle
  uTop := h.uTop
  uBottom := h.uBottom
  uCurrent := h.uCurrent
  oldDStk := h.oldDStk
  freed := h.freed
  fresh := h.fresh

theorem put (h : Kept n B e e') (c : Cell) (hc : c.Within n B)
    (hl : c.Old n → c ∈ e'.uStk.map Prod.fst) (v : Option Line) : Kept n B e (e'.put c v) where
  logs d hd := by
    rw [← h.logs d hd]
    by_cases hcd : d = c
    · rw [Editor.put, unwind_update_of_mem (hl (hcd ▸ hd))]
    · exact unwind_update_of_ne hcd
  frame l hln hB := by
    rw [← h.frame l hln hB]
    apply Function.update_of_ne
    rintro rfl
    rcases hc with hc | hc
    · exact hB hc
    · exact absurd hln (Nat.not_lt.2 hc)
  handle := h.handle
  uTop := h.uTop
  uBottom := h.uBottom
  uCurrent := h.uCurrent
  oldDStk := h.oldDStk
  freed := h.freed
  fresh := h.fresh

theorem store (h : Kept n B e e') (c : Cell) (hc : c.Within n B) (v : Option Line) :
    Kept n B e (e'.store c v) :=
  (h.uAddStk c).put c hc (fun _ => by simp [Editor.uAddStk]) v

theorem newLine (h : Kept n B e e') (hn : n ≤ e'.fresh) (k : Nat) (p q : Option Line) :
    Kept n B e (e'.newLine k p q) where
  logs d hd := by
    rw [← h.logs d hd]
    exact unwind_congr (newLine_mem_old hn hd)
  frame l hl hB := by
    rw [← h.frame l hl hB]
    exact newLine_mem_old hn (show Cell.Old n (.below l) from hl)
  handle l hl := by
    rw [← h.handle l hl]
    apply Function.update_of_ne
    exact Nat.ne_of_lt (Nat.lt_of_lt_of_le hl hn)
  uTop := h.uTop
  uBottom := h.uBottom
  uCurrent := h.uCurrent
  oldDStk := h.oldDStk
  freed := h.freed
  fresh := Nat.le_trans h.fresh (Nat.le_succ _)

theorem uPopNSwap (h : Kept n B e e') (hs : e'.uPopNSwap c = some e'')
    (hb : ∀ l, e'.uStk.head?.map Prod.fst ≠ some (.below l)) : Kept n B e e'' := by
  rw [Editor.uPopNSwap] at hs
  split at hs
  · cases hs
  · rename_i d v stk heq
    cases hs
    refine ⟨?_, ?_, h.handle, h.uTop, h.uBottom, h.uCurrent, h.oldDStk, h.freed, h.fresh⟩
    · intro x hx
      rw [← h.logs x hx, heq, unwind_cons_self]
      rfl
    · intro l hl hB
      rw [← h.frame l hl hB]
      apply Function.update_of_ne
      rintro rfl
      exact hb l (by simp [heq])

theorem marked (h : Kept n B e e') (hm : Marked e' e'') : Kept n B e e'' where
  logs d hd := by rw [hm.logs, h.logs d hd]
  frame l hl hB := by rw [(hm.links l).2, h.frame l hl hB]
  handle := by rw [hm.eq]; exact h.handle
  uTop := by rw [hm.eq]; exact h.uTop
  uBottom := by rw [hm.eq]; exact h.uBottom
  uCurrent := by rw [hm.eq]; exact h.uCurrent
  oldDStk := by rw [hm.eq]; exact h.oldDStk
  freed := by rw [hm.eq]; exact h.freed
  fresh := by rw [hm.eq]; exact h.fresh

end Kept

namespace Marked

theorem refl (e : Editor) : Marked e e :=
  ⟨rfl, .refl _, rfl, [], by simp, rfl⟩

theorem trans (h : Marked e e') (h' : Marked e' e'') : Marked e e'' where
  eq := by rw [h'.eq, h.eq]
  links := h.links.trans h'.links
  logs := h'.logs.trans h.logs
  pushed := by
    obtain ⟨log, hlog, heq⟩ := h.pushed
    obtain ⟨log', hlog', heq'⟩ := h'.pushed
    refine ⟨log' ++ log, ?_, by rw [heq', heq, List.append_assoc]⟩
    intro x hx
    rcases List.mem_append.1 hx with hx | hx
    · exact hlog' x hx
    · exact hlog x hx

theorem store (e : Editor) (i : Fin 26) (v : Option Line) : Marked e (e.store (.mark i) v) where
  eq := rfl
  links l := by simp
  logs := unwind_cons_update
  pushed := ⟨[(.mark i, e.mem (.mark i))], by simp, rfl⟩

theorem foldl {α : Type} {f : Editor → α → Editor} (hf : ∀ e x, Marked e (f e x)) (e : Editor)
    (xs : List α) : Marked e (xs.foldl f e) := by
  induction xs generalizing e with
  | nil => exact .refl e
  | cons x xs ih => exact (hf e x).trans (ih (f e x))

theorem kuChk (e : Editor) (begi fini : Line) (v : Option Line) : Marked e (e.kuChk begi fini v) :=
    by
  apply foldl
  intro e l
  apply foldl
  intro e i
  split
  · exact .store e i v
  · exact .refl e

end Marked

end Bsdi.Ed
