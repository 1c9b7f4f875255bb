import Bsdi.Quad.Multiply
import Bsdi.Lib.Digits

/-!
# Program D

The parts of `__qdivrem`: the shifts, the guess of a digit of the quotient, multiply and subtract,
add back, and the loop over the digits of the quotient.
-/

namespace Bsdi.Quad

open Bsdi.Lib

variable {u v : ℕ → ℕ} {p q vp n i t sh len : ℕ}

def Digital (u : ℕ → ℕ) : Prop := ∀ k, u k < base

theorem Digital.update (hu : Digital u) {x : ℕ} (hx : x < base) :
    Digital (Function.update u p x) := by
  intro k
  rw [Function.update_apply]
  split_ifs
  · exact hx
  · exact hu k

theorem combine_eq {a b : ℕ} (ha : a < base) (hb : b < base) : combine a b = a * base + b := by
  have hup : lhup a = a <<< 16 := by
    rw [Nat.shiftLeft_eq, lhup]
    simp only [ulongMod, base] at ha ⊢
    omega
  rw [combine, hup, ← Nat.shiftLeft_add_eq_or_of_lt hb, Nat.shiftLeft_eq]
  rfl

theorem borrow_digit {a x : ℕ} (ha : a < base) (hx : x ≤ (base - 1) * (base - 1)) (ht : t < base) :
    lhalf (subLong (subLong a x) t) + x + t =
        a + ((base - hhalf (subLong (subLong a x) t)) &&& (base - 1)) * base ∧
      ((base - hhalf (subLong (subLong a x) t)) &&& (base - 1)) < base := by
  have hand : ∀ y, y &&& (base - 1) = y % base := fun y => Nat.and_two_pow_sub_one_eq_mod y 16
  rw [hand]
  simp only [lhalf, hhalf, subLong, ulongMod, base] at *
  omega

theorem mulSub_spec (vp p i : ℕ) {qhat : ℕ} (hu : Digital u) (hv : Digital v) (hq : qhat < base)
    (ht : t < base) :
    Digital (mulSub v vp qhat p i u t).1 ∧ (mulSub v vp qhat p i u t).2 < base ∧
      num base (mulSub v vp qhat p i u t).1 (p + 1) i + qhat * num base v (vp + 1) i + t =
        num base u (p + 1) i + (mulSub v vp qhat p i u t).2 * base ^ i ∧
      ∀ k, k ≤ p ∨ p + i < k → (mulSub v vp qhat p i u t).1 k = u k := by
  -- from the last digit on
  induction i generalizing u t with
  | zero => simpa [mulSub] using ⟨hu, ht⟩
  | succ i ih =>
    have hprod : v (vp + (i + 1)) * qhat ≤ (base - 1) * (base - 1) :=
      Nat.mul_le_mul (Nat.le_pred_of_lt (hv _)) (Nat.le_pred_of_lt hq)
    obtain ⟨hdigit, hborrow⟩ := borrow_digit (hu (p + (i + 1))) hprod ht
    rw [mulSub, mulLong_eq (hv _) hq]
    generalize subLong (subLong (u (p + (i + 1))) (v (vp + (i + 1)) * qhat)) t = w at *
    have hu' : Digital (Function.update u (p + (i + 1)) (lhalf w)) := hu.update (lhalf_lt w)
    obtain ⟨hdigital, hlt, hsum, hsame⟩ := ih hu' hborrow
    refine ⟨hdigital, hlt, ?_, fun k hk => ?_⟩
    · have hlow := hsame (p + (i + 1)) (Or.inr (by omega))
      rw [Function.update_self] at hlow
      rw [num_congr (u := u) (a := p + 1) fun j hj =>
        Function.update_of_ne (by omega : p + 1 + j ≠ p + (i + 1)) _ _] at hsum
      rw [num_succ, num_succ, num_succ, Nat.pow_succ, show p + 1 + i = p + (i + 1) by omega,
        show vp + 1 + i = vp + (i + 1) by omega, hlow]
      linear_combination base * hsum + hdigit
    · rw [hsame k (by omega), Function.update_of_ne (by omega)]

theorem addBack_spec (vp p i : ℕ) (hu : Digital u) (hv : Digital v) (ht : t ≤ 1) :
    Digital (addBack v vp p i u t).1 ∧ (addBack v vp p i u t).2 ≤ 1 ∧
      num base (addBack v vp p i u t).1 (p + 1) i + (addBack v vp p i u t).2 * base ^ i =
        num base u (p + 1) i + num base v (vp + 1) i + t ∧
      ∀ k, k ≤ p ∨ p + i < k → (addBack v vp p i u t).1 k = u k := by
  induction i generalizing u t with
  | zero => simpa [addBack] using ⟨hu, ht⟩
  | succ i ih =>
    have hdigit : lhalf (addLong t (u (p + (i + 1)) + v (vp + (i + 1)))) +
        hhalf (addLong t (u (p + (i + 1)) + v (vp + (i + 1)))) * base =
          t + (u (p + (i + 1)) + v (vp + (i + 1))) ∧
        hhalf (addLong t (u (p + (i + 1)) + v (vp + (i + 1)))) ≤ 1 := by
      have ha := hu (p + (i + 1))
      have hb := hv (vp + (i + 1))
      simp only [lhalf, hhalf, addLong, ulongMod, base] at *
      omega
    rw [addBack]
    generalize addLong t (u (p + (i + 1)) + v (vp + (i + 1))) = w at *
    have hu' : Digital (Function.update u (p + (i + 1)) (lhalf w)) := hu.update (lhalf_lt w)
    obtain ⟨hdigital, hle, hsum, hsame⟩ := ih hu' hdigit.2
    refine ⟨hdigital, hle, ?_, fun k hk => ?_⟩
    · have hlow := hsame (p + (i + 1)) (Or.inr (by omega))
      rw [Function.update_self] at hlow
      rw [num_congr (u := u) (a := p + 1) fun j hj =>
        Function.update_of_ne (by omega : p + 1 + j ≠ p + (i + 1)) _ _] at hsum
      rw [num_succ, num_succ, num_succ, Nat.pow_succ, show p + 1 + i = p + (i + 1) by omega,
        show vp + 1 + i = vp + (i + 1) by omega, hlow]
      linear_combination base * hsum + hdigit.1
    · rw [hsame k (by omega), Function.update_of_ne (by omega)]

section

variable {v1 v2 uj0 uj1 uj2 : ℕ}

/-- The guess is the quotient of the first three digits by the first two of the divisor, unless
that is not a digit. -/
structure Guessed (v1 v2 uj0 uj1 uj2 k : ℕ) : Prop where
  lt : k < base
  le : k * (v1 * base + v2) ≤ (uj0 * base + uj1) * base + uj2
  most : k = base - 1 ∨ (uj0 * base + uj1) * base + uj2 < (k + 1) * (v1 * base + v2)

theorem qhatLoop_spec {fuel qhat rhat : ℕ} (hv1 : 0 < v1) (hv2 : v2 < base) (huj2 : uj2 < base)
    (hq : qhat < base) (hr : rhat < base) (hfuel : base ≤ fuel + rhat)
    (heq : qhat * v1 + rhat = uj0 * base + uj1)
    (hmost : qhat = base - 1 ∨
      (uj0 * base + uj1) * base + uj2 < (qhat + 1) * (v1 * base + v2)) :
    Guessed v1 v2 uj0 uj1 uj2 (qhatLoop v1 v2 uj2 fuel qhat rhat) := by
  induction fuel generalizing qhat rhat with
  | zero => omega
  | succ fuel ih =>
    -- the test says that `qhat` is too large for the first three digits
    have hthree : (uj0 * base + uj1) * base + uj2 =
        qhat * (v1 * base) + (rhat * base + uj2) := by
      rw [← heq]
      ring
    rw [qhatLoop, combine_eq hr huj2, mulLong_eq hv2 hq]
    split_ifs with htest hbreak
    all_goals
      have hsplit : qhat * (v1 * base + v2) = qhat * (v1 * base) + v2 * qhat := by ring
    · -- the remainder has left the range where the test can hold
      obtain ⟨k, rfl⟩ : ∃ k, qhat = k + 1 := ⟨qhat - 1, by
        rcases qhat with _ | k
        · simp at htest
        · rfl⟩
      rw [Nat.add_sub_cancel]
      refine ⟨by omega, ?_, Or.inr (by rw [hsplit, hthree]; omega)⟩
      have hkv : v2 * k ≤ base * base := Nat.mul_le_mul (by omega) (by omega)
      have hbase : base * base ≤ (rhat + v1) * base := Nat.mul_le_mul_right base hbreak
      have h₁ : k * (v1 * base + v2) = k * (v1 * base) + v2 * k := by ring
      have h₂ : (k + 1) * (v1 * base) + (rhat * base + uj2) =
          k * (v1 * base) + (rhat + v1) * base + uj2 := by ring
      rw [h₁, hthree, h₂]
      omega
    · obtain ⟨k, rfl⟩ : ∃ k, qhat = k + 1 := ⟨qhat - 1, by
        rcases qhat with _ | k
        · simp at htest
        · rfl⟩
      refine ih (by omega) (by omega) (by omega) ?_ (Or.inr ?_)
      · rw [← heq, Nat.add_sub_cancel]
        ring
      · rw [Nat.add_sub_cancel, hsplit, hthree]
        omega
    · exact ⟨hq, by rw [hsplit, hthree]; omega, hmost⟩

theorem guess_spec (hv1 : 0 < v1) (hv1' : v1 < base) (hv2 : v2 < base) (huj0 : uj0 ≤ v1)
    (huj1 : uj1 < base) (huj2 : uj2 < base) :
    Guessed v1 v2 uj0 uj1 uj2 (guess v1 v2 uj0 uj1 uj2) := by
  have hpos : 0 < base := by decide
  rw [guess]
  split_ifs with heq hbreak
  · subst heq
    refine ⟨by omega, ?_, Or.inl rfl⟩
    obtain ⟨k, hk⟩ : ∃ k, base = k + 1 := ⟨base - 1, by decide⟩
    have hkv : k * v2 ≤ base * base := Nat.mul_le_mul (by omega) (by omega)
    have hbase : base * base ≤ (uj1 + uj0) * base := Nat.mul_le_mul_right base hbreak
    have h₁ : (base - 1) * (uj0 * base + v2) = k * (uj0 * base) + k * v2 := by
      rw [hk, Nat.add_sub_cancel]
      ring
    have h₂ : (uj0 * base + uj1) * base + uj2 =
        k * (uj0 * base) + (uj1 + uj0) * base + uj2 := by
      calc (uj0 * base + uj1) * base + uj2 = base * (uj0 * base) + uj1 * base + uj2 := by ring
        _ = (k + 1) * (uj0 * base) + uj1 * base + uj2 := by rw [← hk]
        _ = k * (uj0 * base) + (uj1 + uj0) * base + uj2 := by ring
    rw [h₁, h₂]
    omega
  · subst heq
    refine qhatLoop_spec hv1 hv2 huj2 (by omega) (by omega) (by omega) ?_ (Or.inl rfl)
    obtain ⟨k, hk⟩ : ∃ k, base = k + 1 := ⟨base - 1, by decide⟩
    rw [hk, Nat.add_sub_cancel]
    ring
  · have hlt : uj0 * base + uj1 < base * v1 := by
      have : (uj0 + 1) * base ≤ v1 * base := Nat.mul_le_mul_right base (by omega)
      rw [Nat.add_mul] at this
      rw [Nat.mul_comm base]
      omega
    rw [combine_eq (by omega) huj1]
    have hdiv := Nat.div_add_mod' (uj0 * base + uj1) v1
    have hmod := Nat.mod_lt (uj0 * base + uj1) hv1
    refine qhatLoop_spec hv1 hv2 huj2 ((Nat.div_lt_iff_lt_mul hv1).2 hlt) (by omega) (by omega)
      hdiv (Or.inr ?_)
    generalize (uj0 * base + uj1) / v1 = a at *
    have hle : (uj0 * base + uj1 + 1) * base ≤ (a + 1) * v1 * base :=
      Nat.mul_le_mul_right base (by rw [Nat.add_mul a]; omega)
    have h₁ : (uj0 * base + uj1 + 1) * base = (uj0 * base + uj1) * base + base := by ring
    have h₂ : (a + 1) * (v1 * base + v2) = (a + 1) * v1 * base + (a + 1) * v2 := by ring
    rw [h₂]
    omega

end

theorem num_three (hn : 2 ≤ n) : num base u p (n + 1) =
    ((u p * base + u (p + 1)) * base + u (p + 2)) * base ^ (n - 2) +
      num base u (p + 3) (n - 2) := by
  rw [show n + 1 = 3 + (n - 2) by omega, num_append]
  simp [num]

theorem num_two (v : ℕ → ℕ) (vp : ℕ) (hn : 2 ≤ n) : num base v (vp + 1) n =
    (v (vp + 1) * base + v (vp + 2)) * base ^ (n - 2) + num base v (vp + 3) (n - 2) := by
  conv_lhs => rw [show n = 2 + (n - 2) by omega, num_append]
  simp [num]

theorem guess_bounds (hu : Digital u) (hv : Digital v) (hn : 2 ≤ n) (hv1 : v (vp + 1) ≠ 0)
    (hlt : num base u p (n + 1) < num base v (vp + 1) n * base) {k : ℕ}
    (hk : k = guess (v (vp + 1)) (v (vp + 2)) (u p) (u (p + 1)) (u (p + 2))) :
    k < base ∧ num base u p (n + 1) / num base v (vp + 1) n ≤ k ∧
      (k - 1) * num base v (vp + 1) n ≤ num base u p (n + 1) := by
  have hU := num_three (u := u) (p := p) hn
  have hV := num_two v vp hn
  have hurest : num base u (p + 3) (n - 2) < base ^ (n - 2) := num_lt fun i _ => hu _
  have hvrest : num base v (vp + 3) (n - 2) < base ^ (n - 2) := num_lt fun i _ => hv _
  have hWpos : 0 < base ^ (n - 2) := Nat.pow_pos (by decide)
  have hVpos : 0 < num base v (vp + 1) n := by
    refine Nat.pos_of_ne_zero fun h => hv1 ?_
    exact (num_eq_zero (by decide)).1 h 0 (by omega)
  -- the dividend is less than `B` times the divisor, and so are the digits they start with
  have huj0 : u p ≤ v (vp + 1) := by
    by_contra hgt
    have h₁ : (v (vp + 1) + 1) * base ^ n ≤ u p * base ^ n :=
      Nat.mul_le_mul_right _ (by omega)
    have h₂ : num base v (vp + 1) n < (v (vp + 1) + 1) * base ^ (n - 1) := by
      obtain ⟨m, rfl⟩ : ∃ m, n = m + 1 := ⟨n - 1, by omega⟩
      have : num base v (vp + 1 + 1) m < base ^ m := num_lt fun i _ => hv _
      rw [num_cons, Nat.add_mul, Nat.add_sub_cancel]
      omega
    have h₃ : num base v (vp + 1) n * base < (v (vp + 1) + 1) * base ^ (n - 1) * base :=
      Nat.mul_lt_mul_of_pos_right h₂ (by decide)
    have hpow : base ^ (n - 1) * base = base ^ n := by
      rw [← Nat.pow_succ, show (n - 1).succ = n by omega]
    rw [Nat.mul_assoc, hpow] at h₃
    rw [num_cons] at hlt
    omega
  obtain ⟨hkB, hle, hmost⟩ := guess_spec (Nat.pos_of_ne_zero hv1) (hv _) (hv (vp + 2)) huj0
    (hu (p + 1)) (hu (p + 2))
  rw [← hk] at hkB hle hmost
  refine ⟨hkB, ?_, ?_⟩
  · have hq : num base u p (n + 1) / num base v (vp + 1) n * num base v (vp + 1) n ≤
        num base u p (n + 1) := Nat.div_mul_le_self _ _
    have hguess := quotient_le_guess (N := (u p * base + u (p + 1)) * base + u (p + 2))
      (D := v (vp + 1) * base + v (vp + 2)) (W := base ^ (n - 2))
      (by rw [hU, Nat.add_one_mul]; omega) (by rw [hV]; omega) hq
    rcases hmost with rfl | hmost
    · have := (Nat.div_lt_iff_lt_mul hVpos).2 (by rw [Nat.mul_comm]; exact hlt)
      omega
    · exact Nat.lt_succ_iff.1 (Nat.lt_of_mul_lt_mul_right (hguess.trans_lt hmost))
  · refine guess_le_quotient (W := base ^ (n - 2)) (by rw [hU]; omega)
      (by rw [hV, Nat.add_one_mul]; omega) hle ?_
    have : base ≤ v (vp + 1) * base := Nat.le_mul_of_pos_left _ (Nat.pos_of_ne_zero hv1)
    omega

theorem divStep_spec (hu : Digital u) (hv : Digital v) (hn : 2 ≤ n) (hv1 : v (vp + 1) ≠ 0)
    (hlt : num base u p (n + 1) < num base v (vp + 1) n * base) :
    Digital (divStep v vp n p u).1 ∧
      (divStep v vp n p u).2 = num base u p (n + 1) / num base v (vp + 1) n ∧
      num base (divStep v vp n p u).1 p (n + 1) =
        num base u p (n + 1) % num base v (vp + 1) n ∧
      ∀ k, k < p ∨ p + n < k → (divStep v vp n p u).1 k = u k := by
  obtain ⟨hkB, hkge, hkle⟩ := guess_bounds hu hv hn hv1 hlt rfl
  have hVpos : 0 < num base v (vp + 1) n := by
    refine Nat.pos_of_ne_zero fun h => hv1 ?_
    exact (num_eq_zero (by decide)).1 h 0 (by omega)
  have hVlt : num base v (vp + 1) n < base ^ n := num_lt fun i _ => hv _
  rw [divStep]
  generalize guess (v (vp + 1)) (v (vp + 2)) (u p) (u (p + 1)) (u (p + 2)) = k at *
  obtain ⟨hdig, hborrow, hsum, hsame⟩ :=
    mulSub_spec vp p n hu hv hkB (by decide : 0 < base)
  generalize hr : mulSub v vp k p n u 0 = r at *
  obtain ⟨u₁, t₁⟩ := r
  dsimp only at hdig hborrow hsum hsame ⊢
  rw [hsame p (Or.inl (Nat.le_refl p))]
  have hup := hu p
  have hquot : ∀ q, q * num base v (vp + 1) n ≤ num base u p (n + 1) →
      num base u p (n + 1) < (q + 1) * num base v (vp + 1) n →
        q = num base u p (n + 1) / num base v (vp + 1) n := fun q h₁ h₂ =>
    Nat.le_antisymm ((Nat.le_div_iff_mul_le hVpos).2 h₁)
      (Nat.lt_succ_iff.1 ((Nat.div_lt_iff_lt_mul hVpos).2 h₂))
  have hmost : num base u p (n + 1) < (k + 1) * num base v (vp + 1) n :=
    (Nat.div_lt_iff_lt_mul hVpos).1 (Nat.lt_succ_of_le hkge)
  have hU : num base u p (n + 1) = u p * base ^ n + num base u (p + 1) n := num_cons
  have hlow : num base u₁ (p + 1) n < base ^ n := num_lt fun i _ => hdig _
  have hrest : ∀ x, num base (Function.update u₁ p x) p (n + 1) =
      x * base ^ n + num base u₁ (p + 1) n := by
    intro x
    rw [num_cons, Function.update_self, num_congr (u := u₁) (a := p + 1) fun j _ =>
      Function.update_of_ne (by omega : p + 1 + j ≠ p) _ _]
  have hframe : ∀ x j, j < p ∨ p + n < j → Function.update u₁ p x j = u j := by
    intro x j hj
    rw [Function.update_of_ne (by omega), hsame j (by omega)]
  by_cases hge : t₁ ≤ u p
  · -- there is no borrow
    have ht : subLong (u p) t₁ = u p - t₁ := by
      simp only [subLong, ulongMod, base] at *
      omega
    have hlhalf : lhalf (u p - t₁) = u p - t₁ := Nat.mod_eq_of_lt (by omega)
    have hhhalf : hhalf (u p - t₁) = 0 := Nat.div_eq_of_lt (by omega)
    rw [ht, if_neg (by rw [hhhalf]; decide), hlhalf]
    have hdiff : k * num base v (vp + 1) n + ((u p - t₁) * base ^ n + num base u₁ (p + 1) n) =
        num base u p (n + 1) := by
      have : u p * base ^ n = (u p - t₁) * base ^ n + t₁ * base ^ n := by
        rw [← Nat.add_mul, Nat.sub_add_cancel hge]
      omega
    have hk := hquot k (by omega) hmost
    refine ⟨hdig.update (by omega), hk, ?_, hframe _⟩
    rw [hrest, Nat.mod_eq_sub_mul_div, ← hk, Nat.mul_comm (num base v (vp + 1) n) k]
    omega
  · -- there is one: the guess is too large
    have hbound : (u p + 1) * base ^ n ≤ t₁ * base ^ n := Nat.mul_le_mul_right _ (by omega)
    rw [Nat.add_one_mul] at hbound
    obtain ⟨q, rfl⟩ : ∃ q, k = q + 1 := ⟨k - 1, by
      rcases k with _ | k
      · rw [Nat.zero_mul] at hsum
        omega
      · rfl⟩
    have ht : subLong (u p) t₁ = ulongMod - (t₁ - u p) := by
      simp only [subLong, ulongMod, base] at *
      omega
    have hlhalf : lhalf (ulongMod - (t₁ - u p)) = base - (t₁ - u p) := by
      simp only [lhalf, ulongMod, base] at *
      omega
    have hhhalf : hhalf (ulongMod - (t₁ - u p)) ≠ 0 := by
      simp only [hhalf, ulongMod, base] at *
      omega
    rw [ht, if_pos hhhalf, hlhalf, Nat.add_sub_cancel]
    rw [Nat.add_sub_cancel] at hkle
    have hu₂ : Digital (Function.update u₁ p (base - (t₁ - u p))) := hdig.update (by omega)
    obtain ⟨hdig₂, hcarry, hsum₂, hsame₂⟩ :=
      addBack_spec vp p n hu₂ hv (Nat.zero_le 1)
    generalize addBack v vp p n (Function.update u₁ p (base - (t₁ - u p))) 0 = r₂ at *
    obtain ⟨u₃, t₃⟩ := r₂
    dsimp only at hdig₂ hcarry hsum₂ hsame₂ ⊢
    have hover : num base u p (n + 1) < (q + 1) * num base v (vp + 1) n := by omega
    have hq := hquot q hkle hover
    have hsame₁ : num base (Function.update u₁ p (base - (t₁ - u p))) (p + 1) n =
        num base u₁ (p + 1) n := num_congr fun j _ =>
      Function.update_of_ne (by omega : p + 1 + j ≠ p) _ _
    rw [hsame₁] at hsum₂
    have hlow₂ : num base u₃ (p + 1) n < base ^ n := num_lt fun i _ => hdig₂ _
    -- adding the divisor back carries into the digit that was borrowed
    have hrem : num base u p (n + 1) % num base v (vp + 1) n + (t₁ - u p) * base ^ n =
        num base u₃ (p + 1) n + t₃ * base ^ n := by
      have hdiv := Nat.div_add_mod' (num base u p (n + 1)) (num base v (vp + 1) n)
      rw [← hq] at hdiv
      have h₁ : t₁ * base ^ n = (t₁ - u p) * base ^ n + u p * base ^ n := by
        rw [← Nat.add_mul, Nat.sub_add_cancel (Nat.le_of_not_le hge)]
      rw [Nat.add_one_mul] at hsum
      omega
    have hmod : num base u p (n + 1) % num base v (vp + 1) n < base ^ n :=
      (Nat.mod_lt _ hVpos).trans hVlt
    have hone : t₁ - u p = 1 ∧ t₃ = 1 := by
      have h₁ : 1 * base ^ n ≤ (t₁ - u p) * base ^ n := Nat.mul_le_mul_right _ (by omega)
      have h₃ : t₃ = 1 := by
        rcases Nat.le_one_iff_eq_zero_or_eq_one.1 hcarry with rfl | h
        · omega
        · exact h
      refine ⟨?_, h₃⟩
      by_contra hne
      have h₂ : 2 * base ^ n ≤ (t₁ - u p) * base ^ n := Nat.mul_le_mul_right _ (by omega)
      rw [h₃] at hrem
      omega
    refine ⟨hdig₂.update (lhalf_lt _), hq, ?_, fun j hj => ?_⟩
    · rw [num_cons, Function.update_self, num_congr (u := u₃) (a := p + 1) fun j _ =>
        Function.update_of_ne (by omega : p + 1 + j ≠ p) _ _, hsame₂ p (Or.inl (Nat.le_refl p)),
        Function.update_self, hone.1, hone.2, (by decide : lhalf (base - 1 + 1) = 0)]
      rw [hone.1, hone.2] at hrem
      omega
    · rw [Function.update_of_ne (by omega), hsame₂ j (by omega), Function.update_of_ne (by omega),
        hsame j (by omega)]

theorem divLoop_spec (cnt : ℕ) {w : ℕ → ℕ} (hu : Digital u) (hv : Digital v) (hn : 2 ≤ n)
    (hv1 : v (vp + 1) ≠ 0) (hlt : num base u p n < num base v (vp + 1) n) :
    Digital (divLoop v vp n cnt p q u w).1 ∧
      num base (divLoop v vp n cnt p q u w).2 q cnt =
        num base u p (n + cnt) / num base v (vp + 1) n ∧
      num base (divLoop v vp n cnt p q u w).1 p (n + cnt) =
        num base u p (n + cnt) % num base v (vp + 1) n ∧
      (∀ k, k < p → (divLoop v vp n cnt p q u w).1 k = u k) ∧
      ∀ k, k < q → (divLoop v vp n cnt p q u w).2 k = w k := by
  have hVlt : num base v (vp + 1) n < base ^ n := num_lt fun i _ => hv _
  -- by induction on the digits of the quotient: what is left is less than the divisor again
  induction cnt generalizing p q u w with
  | zero =>
    refine ⟨hu, ?_, ?_, fun k _ => rfl, fun k _ => rfl⟩
    · rw [num_zero, Nat.add_zero, Nat.div_eq_of_lt hlt]
    · rw [Nat.add_zero, Nat.mod_eq_of_lt hlt]
      rfl
  | succ cnt ih =>
    have hfirst : num base u p (n + 1) < num base v (vp + 1) n * base := by
      have h₁ : (num base u p n + 1) * base ≤ num base v (vp + 1) n * base :=
        Nat.mul_le_mul_right base hlt
      have h₂ := hu (p + n)
      rw [Nat.add_one_mul] at h₁
      rw [num_succ]
      omega
    obtain ⟨hdig, hquot, hrem, hsame⟩ := divStep_spec hu hv hn hv1 hfirst
    rw [divLoop]
    generalize hr : divStep v vp n p u = r at hdig hquot hrem hsame ⊢
    obtain ⟨u₁, qhat⟩ := r
    dsimp only at hdig hquot hrem hsame ⊢
    have hVpos : 0 < num base v (vp + 1) n := Nat.zero_lt_of_lt hlt
    have hmod := Nat.mod_lt (num base u p (n + 1)) hVpos
    -- the first digit is used up
    have hzero : u₁ p = 0 := by
      have := num_leading (m := 1) (n := n) (B := base) (u := u₁) (a := p) (by
        rw [Nat.add_comm 1 n, hrem]
        exact hmod.trans hVlt)
      simpa using this
    have hnext : num base u₁ (p + 1) n = num base u p (n + 1) % num base v (vp + 1) n := by
      rw [← hrem, num_cons, hzero, Nat.zero_mul, Nat.zero_add]
    have hqhat : lhalf qhat = qhat := by
      refine Nat.mod_eq_of_lt ?_
      rw [hquot]
      exact (Nat.div_lt_iff_lt_mul hVpos).2 (by rw [Nat.mul_comm]; exact hfirst)
    rw [hqhat]
    obtain ⟨hdig', hquot', hrem', hsame', hqs'⟩ :=
      ih (p := p + 1) (q := q + 1) (w := Function.update w q qhat) hdig
        (by rw [hnext]; exact hmod)
    -- the digits behind the first `n + 1` are still the same
    have hrest : num base u₁ (p + 1) (n + cnt) =
        num base u p (n + 1) % num base v (vp + 1) n * base ^ cnt +
          num base u (p + (n + 1)) cnt := by
      rw [num_append, hnext, show p + 1 + n = p + (n + 1) by omega]
      congr 1
      exact num_congr fun i _ => hsame _ (Or.inr (by omega))
    have hwhole : num base u p (n + (cnt + 1)) =
        num base v (vp + 1) n * (qhat * base ^ cnt) + num base u₁ (p + 1) (n + cnt) := by
      have hdiv := Nat.div_add_mod (num base u p (n + 1)) (num base v (vp + 1) n)
      rw [show n + (cnt + 1) = (n + 1) + cnt by omega, num_append, hrest, hquot]
      conv_lhs => rw [← hdiv]
      ring
    refine ⟨hdig', ?_, ?_, fun k hk => ?_, fun k hk => ?_⟩
    · rw [num_cons, hqs' q (Nat.lt_succ_self q), Function.update_self, hquot', hwhole,
        Nat.mul_add_div hVpos]
    · rw [show n + (cnt + 1) = (n + cnt) + 1 by omega, num_cons, hsame' p (Nat.lt_succ_self p),
        hzero, Nat.zero_mul, Nat.zero_add, hrem', show (n + cnt) + 1 = n + (cnt + 1) by omega,
        hwhole, Nat.mul_add_mod]
    · rw [hsame' k (by omega), hsame k (Or.inl hk)]
    · rw [hqs' k (by omega), Function.update_of_ne (by omega)]

theorem base_split (h : sh ≤ halfBits) : base = 2 ^ (halfBits - sh) * 2 ^ sh := by
  rw [← Nat.pow_add, Nat.sub_add_cancel h]
  rfl

theorem or_parts {a b : ℕ} (h : sh ≤ halfBits) (hb : b < 2 ^ sh) :
    lhalf (a <<< sh) ||| b = lhalf (a * 2 ^ sh) + b ∧ lhalf (a * 2 ^ sh) + b < base := by
  have hmul : lhalf (a * 2 ^ sh) = a % 2 ^ (halfBits - sh) * 2 ^ sh := by
    rw [lhalf, base_split h, Nat.mul_mod_mul_right]
  have hlt : a % 2 ^ (halfBits - sh) < 2 ^ (halfBits - sh) := Nat.mod_lt _ (Nat.two_pow_pos _)
  constructor
  · rw [Nat.shiftLeft_eq, hmul, ← Nat.shiftLeft_eq, Nat.shiftLeft_add_eq_or_of_lt hb]
  · have : (a % 2 ^ (halfBits - sh) + 1) * 2 ^ sh ≤ base := by
      rw [base_split h]
      exact Nat.mul_le_mul_right _ hlt
    rw [Nat.add_one_mul] at this
    omega

theorem shl_spec (p len : ℕ) (h : sh ≤ halfBits) (hu : Digital u) :
    Digital (shl sh p len u) ∧
      num base (shl sh p len u) p (len + 1) =
        num base u p (len + 1) * 2 ^ sh % base ^ (len + 1) ∧
      ∀ k, k < p ∨ p + len < k → shl sh p len u k = u k := by
  induction len generalizing p u with
  | zero =>
    refine ⟨hu.update (lhalf_lt _), ?_, fun k hk => Function.update_of_ne (by omega) _ _⟩
    rw [shl, num_one, Function.update_self, Nat.shiftLeft_eq, num_one, pow_one]
    rfl
  | succ len ih =>
    have hpart : u (p + 1) >>> (halfBits - sh) < 2 ^ sh := by
      rw [Nat.shiftRight_eq_div_pow, Nat.div_lt_iff_lt_mul (Nat.two_pow_pos _), Nat.mul_comm,
        ← base_split h]
      exact hu (p + 1)
    obtain ⟨hor, hlt⟩ := or_parts (a := u p) h hpart
    rw [shl, hor]
    have hu' := hu.update (p := p) hlt
    obtain ⟨hdig, hnum, hsame⟩ := ih (p + 1) hu'
    refine ⟨hdig, ?_, fun k hk => ?_⟩
    · have hcons : num base u p (len + 1 + 1) = _ := num_cons
      rw [num_cons, hnum, hsame p (Or.inl (Nat.lt_succ_self p)), Function.update_self,
        num_congr (u := u) (a := p + 1) fun j _ =>
          Function.update_of_ne (by omega : p + 1 + j ≠ p) _ _, hcons]
      have hlow : num base u (p + 1 + 1) len < base ^ len := num_lt fun i _ => hu _
      have hcarry : num base u (p + 1) (len + 1) * 2 ^ sh / base ^ (len + 1) =
          u (p + 1) >>> (halfBits - sh) := by
        have hpow : base ^ (len + 1) = base ^ len * 2 ^ (halfBits - sh) * 2 ^ sh := by
          rw [Nat.pow_succ, Nat.mul_assoc, ← base_split h]
        have hlen : 0 < base ^ len := Nat.pow_pos (by decide)
        rw [hpow, Nat.mul_div_mul_right _ _ (Nat.two_pow_pos sh), ← Nat.div_div_eq_div_mul,
          num_cons, Nat.mul_comm (u (p + 1)), Nat.mul_add_div hlen, Nat.div_eq_of_lt hlow,
          Nat.add_zero, Nat.shiftRight_eq_div_pow]
      have hdiv := Nat.div_add_mod' (num base u (p + 1) (len + 1) * 2 ^ sh) (base ^ (len + 1))
      rw [hcarry] at hdiv
      have hmod : num base u (p + 1) (len + 1) * 2 ^ sh % base ^ (len + 1) < base ^ (len + 1) :=
        Nat.mod_lt _ (Nat.pow_pos (by decide))
      generalize num base u (p + 1) (len + 1) * 2 ^ sh % base ^ (len + 1) = m at hdiv hmod ⊢
      generalize u (p + 1) >>> (halfBits - sh) = c at hdiv hlt ⊢
      have hwhole : (u p * base ^ (len + 1) + num base u (p + 1) (len + 1)) * 2 ^ sh =
          base ^ (len + 1) * (u p * 2 ^ sh + c) + m := by
        rw [Nat.add_mul, ← hdiv]
        ring
      have hdigit : (u p * 2 ^ sh + c) % base = lhalf (u p * 2 ^ sh) + c := by
        rw [← Nat.mod_add_mod]
        exact Nat.mod_eq_of_lt hlt
      rw [hwhole, Nat.pow_succ _ (len + 1), Nat.mod_mul, Nat.mul_add_mod,
        Nat.mul_add_div (Nat.pow_pos (by decide)), Nat.mod_eq_of_lt hmod, Nat.div_eq_of_lt hmod,
        Nat.add_zero (u p * 2 ^ sh + c), hdigit]
      ring
    · rw [hsame k (by omega), Function.update_of_ne (by omega)]

theorem shr_spec (p len : ℕ) (h : sh ≤ halfBits) (hu : Digital u) :
    Digital (shr sh p len u) ∧
      num base (shr sh p len u) (p + 1) len = num base u p (len + 1) / 2 ^ sh % base ^ len ∧
      ∀ k, k ≤ p ∨ p + len < k → shr sh p len u k = u k := by
  induction len generalizing u with
  | zero => exact ⟨hu, (Nat.mod_one _).symm, fun k _ => rfl⟩
  | succ len ih =>
    have hpart : u (p + (len + 1)) >>> sh < 2 ^ (halfBits - sh) := by
      rw [Nat.shiftRight_eq_div_pow, Nat.div_lt_iff_lt_mul (Nat.two_pow_pos _), ← base_split h]
      exact hu _
    have hle : halfBits - sh ≤ halfBits := Nat.sub_le _ _
    obtain ⟨hor, hlt⟩ := or_parts (a := u (p + len)) hle hpart
    rw [shr, Nat.or_comm, hor]
    have hu' := hu.update (p := p + (len + 1)) hlt
    obtain ⟨hdig, hnum, hsame⟩ := ih hu'
    refine ⟨hdig, ?_, fun k hk => ?_⟩
    · have hsucc : num base u p (len + 1 + 1) = _ := num_succ
      rw [num_succ, hnum, show p + 1 + len = p + (len + 1) by omega,
        hsame _ (Or.inr (by omega)), Function.update_self,
        num_congr (u := u) (a := p) fun j _ =>
          Function.update_of_ne (by omega : p + j ≠ p + (len + 1)) _ _, hsucc]
      -- the digit takes the low bits of the digits before it
      have hlast : lhalf (u (p + len) * 2 ^ (halfBits - sh)) =
          num base u p (len + 1) % 2 ^ sh * 2 ^ (halfBits - sh) := by
        have hmod : num base u p (len + 1) % 2 ^ sh = u (p + len) % 2 ^ sh := by
          rw [num_succ, base_split h, ← Nat.mul_assoc, Nat.mul_add_mod']
        rw [hmod, lhalf, base_split h, Nat.mul_comm (2 ^ (halfBits - sh)), Nat.mul_mod_mul_right]
      generalize num base u p (len + 1) = x at hlast ⊢
      rw [hlast, Nat.shiftRight_eq_div_pow]
      have hdiv := Nat.div_add_mod' x (2 ^ sh)
      have hquot : (x * base + u (p + (len + 1))) / 2 ^ sh =
          x / 2 ^ sh * base + (x % 2 ^ sh * 2 ^ (halfBits - sh) + u (p + (len + 1)) / 2 ^ sh) := by
        have hx : x * base + u (p + (len + 1)) =
            2 ^ sh * (x * 2 ^ (halfBits - sh)) + u (p + (len + 1)) := by
          rw [base_split h]
          ring
        rw [hx, Nat.mul_add_div (Nat.two_pow_pos sh)]
        conv_lhs => rw [← hdiv]
        rw [base_split h]
        ring
      rw [hlast] at hlt
      rw [hquot, Nat.pow_succ, Nat.mul_comm (base ^ len), Nat.mod_mul,
        Nat.mul_add_mod', Nat.mod_eq_of_lt (by rwa [← Nat.shiftRight_eq_div_pow] :
          x % 2 ^ sh * 2 ^ (halfBits - sh) + u (p + (len + 1)) / 2 ^ sh < base),
        Nat.mul_comm (x / 2 ^ sh) base, Nat.mul_add_div (by decide), Nat.div_eq_of_lt
          (by rwa [← Nat.shiftRight_eq_div_pow] :
            x % 2 ^ sh * 2 ^ (halfBits - sh) + u (p + (len + 1)) / 2 ^ sh < base), Nat.add_zero]
      ring
    · rw [hsame k (by omega), Function.update_of_ne (by omega)]

end Bsdi.Quad
