import Mathlib.Tactic.Ring
import Mathlib.Tactic.LinearCombination

/-!
# Numbers in cells

A memory whose cells hold the digits of numbers, the most significant digit of a number in its
first cell. The last part is about long division: how to guess a digit of the quotient from the
first digits of the dividend and of the divisor.
-/

namespace Bsdi.Lib

/-- The number with base `B` digits in `len` cells from `a` on. -/
def num (B : ℕ) (u : ℕ → ℕ) (a : ℕ) : ℕ → ℕ
  | 0 => 0
  | len + 1 => num B u a len * B + u (a + len)

variable {B : ℕ} {u u' : ℕ → ℕ} {a b len m n : ℕ}

@[simp] theorem num_zero : num B u a 0 = 0 := rfl

theorem num_succ : num B u a (len + 1) = num B u a len * B + u (a + len) := rfl

@[simp] theorem num_one : num B u a 1 = u a := by simp [num]

theorem num_congr (h : ∀ i < len, u' (b + i) = u (a + i)) : num B u' b len = num B u a len := by
  induction len with
  | zero => rfl
  | succ len ih =>
    rw [num_succ, num_succ, ih fun i hi => h i (Nat.lt_succ_of_lt hi), h len (Nat.lt_succ_self len)]

theorem num_append : num B u a (m + n) = num B u a m * B ^ n + num B u (a + m) n := by
  induction n with
  | zero => simp
  | succ n ih =>
    rw [← Nat.add_assoc, num_succ, num_succ, ih, Nat.pow_succ, Nat.add_assoc a]
    ring

theorem num_cons : num B u a (len + 1) = u a * B ^ len + num B u (a + 1) len := by
  rw [Nat.add_comm len, num_append, num_one]

theorem num_lt (h : ∀ i < len, u (a + i) < B) : num B u a len < B ^ len := by
  induction len with
  | zero => simp
  | succ len ih =>
    have hlow := h len (Nat.lt_succ_self len)
    have hhigh := ih fun i hi => h i (Nat.lt_succ_of_lt hi)
    calc num B u a len * B + u (a + len) < num B u a len * B + B := by omega
      _ = (num B u a len + 1) * B := by ring
      _ ≤ B ^ len * B := Nat.mul_le_mul_right B hhigh

theorem num_leading (h : num B u a (m + n) < B ^ n) : num B u a m = 0 := by
  rw [num_append] at h
  by_contra hne
  have : B ^ n ≤ num B u a m * B ^ n := Nat.le_mul_of_pos_left _ (Nat.pos_of_ne_zero hne)
  omega

theorem num_eq_zero (hB : 0 < B) : num B u a len = 0 ↔ ∀ i < len, u (a + i) = 0 := by
  induction len with
  | zero => simp
  | succ len ih =>
    rw [num_succ, Nat.add_eq_zero_iff, Nat.mul_eq_zero, or_iff_left (Nat.ne_of_gt hB), ih]
    constructor
    · rintro ⟨hhigh, hlow⟩ i hi
      rcases Nat.lt_succ_iff_lt_or_eq.1 hi with hi | rfl
      · exact hhigh i hi
      · exact hlow
    · exact fun h => ⟨fun i hi => h i (Nat.lt_succ_of_lt hi), h len (Nat.lt_succ_self len)⟩

theorem num_of_leading (h : ∀ i < m, u (a + i) = 0) : num B u a (m + n) = num B u (a + m) n := by
  have hzero : num B u a m = 0 := by
    rw [num_congr (u := fun _ => 0) (a := a) h]
    induction m with
    | zero => rfl
    | succ m ih => rw [num_succ, ih fun i hi => h i (Nat.lt_succ_of_lt hi)]; simp
  rw [num_append, hzero, Nat.zero_mul, Nat.zero_add]

section

variable {U V N D q k : ℕ}

/-- `N` and `D` are the numbers that `U` and `V` start with, their last digits having weight `W`. A
quotient of the whole numbers is not above that of the first digits. -/
theorem quotient_le_guess {W : ℕ} (hN : U < (N + 1) * W) (hD : D * W ≤ V) (hq : q * V ≤ U) :
    q * D ≤ N := by
  by_contra hlt
  have h₁ : (N + 1) * W ≤ q * D * W := Nat.mul_le_mul_right W (by omega)
  have h₂ : q * (D * W) ≤ q * V := Nat.mul_le_mul_left q hD
  rw [Nat.mul_assoc] at h₁
  omega

/-- A guess that is right for the first digits is too large by one at most. -/
theorem guess_le_quotient {W : ℕ} (hN : N * W ≤ U) (hD : V < (D + 1) * W) (hk : k * D ≤ N)
    (hkD : k ≤ D + 1) : (k - 1) * V ≤ U := by
  rcases k with _ | k
  · simp
  · have h₁ : k * V ≤ k * ((D + 1) * W) := Nat.mul_le_mul_left k (Nat.le_of_lt hD)
    have h₂ : k * (D + 1) ≤ N := by
      have : (k + 1) * D = k * D + D := by ring
      have : k * (D + 1) = k * D + k := by ring
      omega
    have h₃ : k * (D + 1) * W ≤ N * W := Nat.mul_le_mul_right W h₂
    rw [Nat.mul_assoc] at h₃
    simpa using h₁.trans (h₃.trans hN)

end

end Bsdi.Lib
