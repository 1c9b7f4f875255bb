import Mathlib.Tactic.Common

/-!
# Comparison functions and binary search

A comparison function in the manner of C returns an integer whose sign is the
result. The binary search keeps a base and a length, and stops early when an
element compares equal.
-/

namespace Bsdi.Lib

/-- A comparison function that is a strict total order. -/
structure TotalCmp {α : Type*} (cmp : α → α → Int) : Prop where
  eq_zero : ∀ a b, cmp a b = 0 ↔ a = b
  neg_swap : ∀ a b, cmp a b < 0 ↔ 0 < cmp b a
  trans : ∀ a b c, cmp a b < 0 → cmp b c < 0 → cmp a c < 0

namespace TotalCmp

variable {α : Type*} {cmp : α → α → Int} {a b c : α}

theorem self (h : TotalCmp cmp) (a : α) : cmp a a = 0 := (h.eq_zero a a).2 rfl

theorem irrefl (h : TotalCmp cmp) (a : α) : ¬ cmp a a < 0 := by
  rw [h.self a]
  exact Int.lt_irrefl 0

theorem pos_iff (h : TotalCmp cmp) : 0 < cmp a b ↔ cmp b a < 0 := (h.neg_swap b a).symm

theorem trans_le_lt (h : TotalCmp cmp) (hab : ¬ cmp b a < 0) (hbc : cmp b c < 0) :
    cmp a c < 0 := by
  rcases Int.lt_trichotomy (cmp a b) 0 with hlt | heq | hgt
  · exact h.trans _ _ _ hlt hbc
  · rwa [(h.eq_zero a b).1 heq]
  · exact absurd (h.pos_iff.1 hgt) hab

theorem trans_lt_le (h : TotalCmp cmp) (hab : cmp a b < 0) (hbc : ¬ cmp c b < 0) :
    cmp a c < 0 := by
  rcases Int.lt_trichotomy (cmp b c) 0 with hlt | heq | hgt
  · exact h.trans _ _ _ hab hlt
  · rwa [← (h.eq_zero b c).1 heq]
  · exact absurd (h.pos_iff.1 hgt) hbc

end TotalCmp

/-- Binary search of positions `base` to `base + lim` for one that compares equal:
its position, or the place where it would be. -/
def bsearch (cmp : Nat → Int) : Nat → Nat → Nat → Nat × Bool
  | 0, base, _ => (base, false)
  | fuel + 1, base, lim =>
    if lim = 0 then (base, false)
    else if cmp (base + lim / 2) = 0 then (base + lim / 2, true)
    else if 0 < cmp (base + lim / 2) then
      bsearch cmp fuel (base + lim / 2 + 1) ((lim - 1) / 2)
    else bsearch cmp fuel base (lim / 2)

/-- From position `first` on, the comparisons of `n` elements go down through zero
at most once. -/
def Descends (cmp : Nat → Int) (first n : Nat) : Prop :=
  ∀ i j, first ≤ i → i < j → j < n → cmp i ≤ 0 → cmp j < 0

/-- What the binary search returns. An element before `first` is only looked at
when it is the last candidate. -/
structure Found (cmp : Nat → Int) (first n : Nat) (r : Nat × Bool) : Prop where
  le : r.1 ≤ n
  hit : r.2 = true → r.1 < n ∧ cmp r.1 = 0
  below : ∀ j, first ≤ j → j < r.1 → 0 < cmp j
  above : ∀ j, first ≤ j → r.1 < j → j < n → cmp j < 0
  here : r.2 = false → first ≤ r.1 → r.1 < n → cmp r.1 < 0

private theorem bsearch_found_aux {cmp : Nat → Int} {first n : Nat} (hfirst : first ≤ 1)
    (hdesc : Descends cmp first n) :
    ∀ fuel base lim, lim ≤ fuel → base + lim ≤ n →
      (∀ j, first ≤ j → j < base → 0 < cmp j) →
      (∀ j, first ≤ j → base + lim ≤ j → j < n → cmp j < 0) →
      Found cmp first n (bsearch cmp fuel base lim) := by
  intro fuel
  induction fuel with
  | zero =>
    intro base lim hlim hn hbelow habove
    obtain rfl : lim = 0 := by omega
    exact ⟨by simpa [bsearch] using hn, by simp [bsearch], by simpa [bsearch] using hbelow,
      fun j hj hlt hjn => habove j hj (by simp only [bsearch] at hlt; omega) hjn,
      fun _ hj hjn => habove _ hj (by simp [bsearch]) hjn⟩
  | succ fuel ih =>
    intro base lim hlim hn hbelow habove
    rw [bsearch]
    split_ifs with h0 heq hpos
    · subst h0
      exact ⟨by simpa using hn, by simp, by simpa using hbelow,
        fun j hj hlt hjn => habove j hj (by simp at hlt; omega) hjn,
        fun _ hj hjn => habove _ hj (by simp) hjn⟩
    · refine ⟨by simp only; omega, fun _ => ⟨by simp only; omega, heq⟩, ?_, ?_, by simp⟩
      · intro j hj hlt
        -- an element before an equal one is above zero
        by_contra hle
        have := hdesc j (base + lim / 2) hj hlt (by omega) (by omega)
        omega
      · intro j hj hlt hjn
        by_cases hm : first ≤ base + lim / 2
        · exact hdesc _ j hm hlt hjn (by omega)
        · exact habove j hj (by simp only at hlt; omega) hjn
    · refine ih _ _ (by omega) (by omega) (fun j hj hlt => ?_) (fun j hj hle hjn => ?_)
      · by_contra hle
        rcases Nat.lt_or_ge j (base + lim / 2) with h | h
        · have := hdesc j (base + lim / 2) hj h (by omega) (by omega)
          omega
        · obtain rfl : j = base + lim / 2 := by omega
          omega
      · exact habove j hj (by omega) hjn
    · refine ih _ _ (by omega) (by omega) hbelow (fun j hj hle hjn => ?_)
      rcases Nat.lt_or_ge (base + lim / 2) j with h | h
      · by_cases hm : first ≤ base + lim / 2
        · exact hdesc _ j hm h hjn (by omega)
        · exact habove j hj (by omega) hjn
      · obtain rfl : j = base + lim / 2 := by omega
        omega

/-- The binary search of all `n` positions finds what it looks for. -/
theorem bsearch_found {cmp : Nat → Int} {first n : Nat} (hfirst : first ≤ 1)
    (hdesc : Descends cmp first n) : Found cmp first n (bsearch cmp n 0 n) :=
  bsearch_found_aux hfirst hdesc n 0 n (Nat.le_refl n) (by omega) (by simp) fun j _ _ _ => by omega

/-- The result of the binary search is one of the positions, or behind them. -/
theorem bsearch_bound (cmp : Nat → Int) (fuel base lim : Nat) :
    (bsearch cmp fuel base lim).1 ≤ base + lim ∧
      ((bsearch cmp fuel base lim).2 = true → (bsearch cmp fuel base lim).1 < base + lim) := by
  induction fuel generalizing base lim with
  | zero => simp [bsearch]
  | succ fuel ih =>
    rw [bsearch]
    split_ifs with h0 heq hpos
    · simp
    · exact ⟨by simp only; omega, fun _ => by simp only; omega⟩
    · obtain ⟨hle, hlt⟩ := ih (base + lim / 2 + 1) ((lim - 1) / 2)
      exact ⟨by omega, fun h => by have := hlt h; omega⟩
    · obtain ⟨hle, hlt⟩ := ih base (lim / 2)
      exact ⟨by omega, fun h => by have := hlt h; omega⟩

end Bsdi.Lib
