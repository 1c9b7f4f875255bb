import Mathlib.Tactic.Common

/-!
# Outcomes of fallible programs

A rule-based way to reason about programs in `Except`: a program ensures a
postcondition when every value it returns satisfies it and every error it stops
with is one of those allowed.
-/

namespace Bsdi.Lib

universe u v

variable {ε : Type u} {α β : Type v} {E : ε → Prop} {x : Except ε α} {f : α → Except ε β}
variable {P : α → Prop} {Q : β → Prop}

@[simp] theorem ok_bind (a : α) (f : α → Except ε β) : (Except.ok a >>= f) = f a := rfl

@[simp] theorem error_bind (e : ε) (f : α → Except ε β) :
    ((Except.error e : Except ε α) >>= f) = .error e := rfl

/-- A program that returns has run all its steps. -/
theorem bind_eq_ok {b : β} : (x >>= f) = .ok b ↔ ∃ a, x = .ok a ∧ f a = .ok b := by
  cases x with
  | ok a => simp
  | error e => simp

/-- `x` returns a value that satisfies `P`, or stops with an error in `E`. -/
def Ensures (E : ε → Prop) (x : Except ε α) (P : α → Prop) : Prop :=
  match x with
  | .ok a => P a
  | .error e => E e

namespace Ensures

@[simp] theorem ok_iff {a : α} : Ensures E (.ok a) P ↔ P a := Iff.rfl

@[simp] theorem error_iff {e : ε} : Ensures E (.error e) P ↔ E e := Iff.rfl

theorem bind (hx : Ensures E x P) (hf : ∀ a, P a → Ensures E (f a) Q) :
    Ensures E (x >>= f) Q := by
  cases x with
  | ok a => exact hf a hx
  | error e => exact hx

theorem mono {P' : α → Prop} (hx : Ensures E x P) (himp : ∀ a, P a → P' a) :
    Ensures E x P' := by
  cases x with
  | ok a => exact himp a hx
  | error e => exact hx

theorem any : Ensures (fun _ => True) x fun _ => True := by
  cases x <;> trivial

theorem errors (hx : Ensures E x P) : Ensures (fun _ => True) x P := by
  cases x with
  | ok a => exact hx
  | error e => trivial

/-- The value of a program is the one it returns. -/
theorem with_eq (hx : Ensures E x P) : Ensures E x fun a => x = .ok a ∧ P a := by
  cases x with
  | ok a => exact ⟨rfl, hx⟩
  | error e => exact hx

/-- A program whose value is known ensures what holds of that value. -/
theorem of_eq_ok {a : α} (hx : x = .ok a) (ha : P a) : Ensures E x P := by
  subst hx
  exact ha

/-- A program that returns has the postcondition. -/
theorem post {a : α} (h : Ensures E x P) (hx : x = .ok a) : P a := by
  subst hx
  exact h

end Ensures

end Bsdi.Lib
