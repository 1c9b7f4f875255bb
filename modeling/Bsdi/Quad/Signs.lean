import Bsdi.Quad.Quotient

/-!
# Signed division

`__divdi3` and `__moddi3` divide without signs and give the result a sign. Both change the sign
when those of the operands differ, which is right for the quotient.
-/

namespace Bsdi.Quad

variable {a b : BitVec 64}

theorem absQuad_eq (a : BitVec 64) : absQuad a = if a.msb then (-a, true) else (a, false) := by
  have hsign : a.slt 0 = a.msb := BitVec.slt_zero_eq_msb
  rw [absQuad, hsign]

theorem absQuad_ne_zero (h : b ≠ 0) : (absQuad b).1 ≠ 0 := by
  rw [absQuad_eq]
  split_ifs
  · exact fun hzero => h (by simpa using hzero)
  · exact h

theorem divdi3_eq (h : b ≠ 0) : divdi3 a b = some (a.sdiv b) := by
  rw [divdi3]
  rw [qdivrem_eq _ (absQuad_ne_zero h), Option.map_some, absQuad_eq, absQuad_eq, BitVec.sdiv_eq]
  cases a.msb <;> cases b.msb <;> rfl

theorem moddi3_eq (h : b ≠ 0) :
    moddi3 a b = some (if b.msb then -a.srem b else a.srem b) := by
  rw [moddi3]
  rw [qdivrem_eq _ (absQuad_ne_zero h), Option.map_some, absQuad_eq, absQuad_eq, BitVec.srem_eq]
  cases a.msb <;> cases b.msb <;> simp

/-- The remainder has the size and the sign that a truncated quotient leaves. -/
structure Remainder (a b r : ℤ) : Prop where
  lt : |r| < |b|
  sign : r = 0 ∨ r.sign = a.sign

def Fit (a b : BitVec 64) : Prop :=
  ∃ q r, divdi3 a b = some q ∧ moddi3 a b = some r ∧ q.toInt = a.toInt.tdiv b.toInt ∧
    q.toInt * b.toInt + r.toInt = a.toInt ∧ Remainder a.toInt b.toInt r.toInt

theorem remainder_tmod {x y : ℤ} (h : y ≠ 0) : Remainder x y (x.tmod y) := by
  constructor
  · rw [← Int.natCast_natAbs, ← Int.natCast_natAbs, Int.natAbs_tmod, Int.ofNat_lt]
    exact Nat.mod_lt _ (Int.natAbs_pos.2 h)
  · by_cases hdvd : y ∣ x
    · exact Or.inl (Int.tmod_eq_zero_of_dvd hdvd)
    · exact Or.inr (by rw [Int.sign_tmod, if_neg hdvd])

theorem toInt_ne_zero (h : b ≠ 0) : b.toInt ≠ 0 := fun hzero =>
  h (BitVec.eq_of_toInt_eq (hzero.trans BitVec.toInt_zero.symm))

theorem fit_iff_srem (hb : b ≠ 0) (h : ¬(a = BitVec.intMin 64 ∧ b = -1)) :
    Fit a b ↔ (if b.msb then -a.srem b else a.srem b).toInt = (a.srem b).toInt := by
  have hquot := BitVec.toInt_sdiv_of_ne_or_ne a b (Decidable.not_and_iff_not_or_not.1 h)
  have hrem := BitVec.toInt_srem a b
  have hsplit := Int.mul_tdiv_add_tmod a.toInt b.toInt
  rw [Int.mul_comm] at hsplit
  constructor
  · rintro ⟨q, r, hq, hr, hqint, hsum, -⟩
    rw [moddi3_eq hb, Option.some_inj] at hr
    rw [hr, hrem]
    rw [hqint] at hsum
    omega
  · intro hr
    refine ⟨_, _, divdi3_eq hb, moddi3_eq hb, hquot, ?_⟩
    rw [hquot, hr, hrem]
    exact ⟨hsplit, remainder_tmod (toInt_ne_zero hb)⟩

theorem neg_srem_iff (hb : b ≠ 0) : (-a.srem b).toInt = (a.srem b).toInt ↔ b.toInt ∣ a.toInt := by
  have hrem := BitVec.toInt_srem a b
  have hlt := (remainder_tmod (x := a.toInt) (toInt_ne_zero hb)).lt
  have hge := BitVec.le_toInt b
  have hle := BitVec.toInt_lt (x := b)
  have habs : |b.toInt| ≤ 2 ^ 63 := abs_le.2 ⟨by omega, by omega⟩
  have hmin : a.srem b ≠ BitVec.intMin 64 := fun heq => by
    rw [heq, (by decide : (BitVec.intMin 64).toInt = -2 ^ 63)] at hrem
    rw [← hrem, abs_neg, abs_of_pos (by decide)] at hlt
    omega
  rw [BitVec.toInt_neg_of_ne_intMin hmin, hrem, Int.dvd_iff_tmod_eq_zero]
  omega

/-- Quotient and remainder fit together for a positive divisor, and for a negative one that leaves
no remainder. -/
theorem fit_iff (hb : b ≠ 0) (h : ¬(a = BitVec.intMin 64 ∧ b = -1)) :
    Fit a b ↔ 0 < b.toInt ∨ b.toInt ∣ a.toInt := by
  have hne := toInt_ne_zero hb
  rw [fit_iff_srem hb h]
  cases hsign : b.msb
  · have hpos := BitVec.toInt_nonneg_of_msb_false hsign
    exact iff_of_true rfl (Or.inl (by omega))
  · have hneg := BitVec.toInt_neg_of_msb_true hsign
    rw [if_pos rfl, neg_srem_iff hb, or_iff_right (by omega)]

theorem fit_iff_seven :
    Fit 7 3 ↔ 0 < (3 : BitVec 64).toInt ∨ (3 : BitVec 64).toInt ∣ (7 : BitVec 64).toInt :=
  fit_iff (by decide) (by decide)

/-- 7 divided by -2: the remainder is -1, and -3 times -2 is 6. -/
theorem not_fit_seven :
    (-2 : BitVec 64) ≠ 0 ∧ ¬((7 : BitVec 64) = BitVec.intMin 64 ∧ (-2 : BitVec 64) = -1) ∧
      ¬Fit 7 (-2) := by
  refine ⟨by decide, by decide, ?_⟩
  rw [fit_iff_srem (by decide) (by decide)]
  decide

end Bsdi.Quad
