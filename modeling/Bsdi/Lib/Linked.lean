import Mathlib.Tactic.Common

/-!
# Doubly linked lists

A list of cells, each of which knows the key of the cell before it and of the cell behind it. What
it means for a cell to hold an element between two keys is a parameter. The keys around a list are
arguments, so that a segment of a list is described in the same way as the whole.
-/

namespace Bsdi.Lib

variable {κ α : Type*} (key : α → κ)

/-- The key of the first element, or the one behind the segment. -/
def headKey (next : κ) : List α → κ
  | [] => next
  | x :: _ => key x

/-- The key of the last element, or the one before the segment. -/
def lastKey (prev : κ) : List α → κ
  | [] => prev
  | x :: xs => lastKey (key x) xs

/-- The elements lie in cells that are linked in both directions. -/
def Linked (cell : α → κ → κ → Prop) : κ → List α → κ → Prop
  | _, [], _ => True
  | prev, x :: xs, next => cell x prev (headKey key next xs) ∧ Linked cell (key x) xs next

variable {key} {cell cell' : α → κ → κ → Prop} {prev next prev' next' : κ}
variable {A B : List α} {x a b : α}

@[simp] theorem headKey_nil : headKey key next [] = next := rfl

@[simp] theorem headKey_cons : headKey key next (x :: A) = key x := rfl

@[simp] theorem headKey_append :
    headKey key next (A ++ B) = headKey key (headKey key next B) A := by
  cases A <;> rfl

@[simp] theorem lastKey_nil : lastKey key prev [] = prev := rfl

@[simp] theorem lastKey_cons : lastKey key prev (x :: A) = lastKey key (key x) A := rfl

@[simp] theorem lastKey_append :
    lastKey key prev (A ++ B) = lastKey key (lastKey key prev A) B := by
  induction A generalizing prev with
  | nil => rfl
  | cons y ys ih => exact ih

@[simp] theorem linked_nil : Linked key cell prev [] next := trivial

theorem linked_cons :
    Linked key cell prev (x :: A) next ↔
      cell x prev (headKey key next A) ∧ Linked key cell (key x) A next := Iff.rfl

/-- A list is linked when its two parts are, each seen from the other. -/
theorem linked_append :
    Linked key cell prev (A ++ B) next ↔
      Linked key cell prev A (headKey key next B) ∧
        Linked key cell (lastKey key prev A) B next := by
  induction A generalizing prev with
  | nil => simp
  | cons y ys ih =>
    rw [List.cons_append, linked_cons, linked_cons, ih, headKey_append, lastKey_cons, and_assoc]

theorem linked_append_cons :
    Linked key cell prev (A ++ x :: B) next ↔
      Linked key cell prev A (key x) ∧ cell x (lastKey key prev A) (headKey key next B) ∧
        Linked key cell (key x) B next := by
  rw [linked_append, linked_cons, headKey_cons]

/-- A store that keeps every cell keeps the list. -/
theorem Linked.imp (h : Linked key cell prev A next)
    (himp : ∀ x ∈ A, ∀ p n, cell x p n → cell' x p n) : Linked key cell' prev A next := by
  induction A generalizing prev with
  | nil => trivial
  | cons y ys ih =>
    exact ⟨himp y (by simp) _ _ h.1, ih h.2 fun x hx => himp x (by simp [hx])⟩

theorem Linked.exists_cell (h : Linked key cell prev A next) (hx : x ∈ A) : ∃ p n, cell x p n := by
  obtain ⟨A₁, A₂, rfl⟩ := List.append_of_mem hx
  exact ⟨_, _, (linked_append_cons.1 h).2.1⟩

theorem Linked.set_next (h : Linked key cell prev (A ++ [a]) next)
    (himp : ∀ x ∈ A, ∀ p n, cell x p n → cell' x p n)
    (hlast : ∀ p, cell a p next → cell' a p next') :
    Linked key cell' prev (A ++ [a]) next' := by
  rw [linked_append_cons] at h ⊢
  exact ⟨h.1.imp himp, hlast _ h.2.1, trivial⟩

theorem Linked.set_prev (h : Linked key cell prev (b :: B) next)
    (hfirst : ∀ n, cell b prev n → cell' b prev' n)
    (himp : ∀ x ∈ B, ∀ p n, cell x p n → cell' x p n) :
    Linked key cell' prev' (b :: B) next :=
  ⟨hfirst _ h.1, h.2.imp himp⟩

end Bsdi.Lib
