import Bsdi.Quad.Arith
import Mathlib.Data.Int.ModEq
import Mathlib.Tactic.Ring
import Mathlib.Tactic.LinearCombination

/-!
# Products

`__lmulq` and `__muldi3` compute products. Both add up three smaller products: that of the high
halves, that of the low halves, and that of their differences, which may be negative.
-/

namespace Bsdi.Quad

theorem hhalf_mul_add_lhalf (x : ℕ) : hhalf x * base + lhalf x = x := Nat.div_add_mod' x base

theorem lhalf_lt (x : ℕ) : lhalf x < base := Nat.mod_lt x (by decide)

theorem hhalf_lt {x : ℕ} (h : x < ulongMod) : hhalf x < base := by
  simp only [hhalf, ulongMod, base] at h ⊢
  omega

theorem addLong_lt (a b : ℕ) : addLong a b < ulongMod := Nat.mod_lt _ (by decide)

theorem subLong_lt (a b : ℕ) : subLong a b < ulongMod := Nat.mod_lt _ (by decide)

theorem lhup_lt (x : ℕ) : lhup x < ulongMod := Nat.mod_lt _ (by decide)

theorem mulLong_eq {a b : ℕ} (ha : a < base) (hb : b < base) : mulLong a b = a * b := by
  refine Nat.mod_eq_of_lt ?_
  have : a * b < base * base := Nat.mul_lt_mul'' ha hb
  exact this

theorem toNat_ofLongs (h l : ℕ) : (ofLongs h l).toNat = (h * ulongMod + l) % 2 ^ 64 :=
  BitVec.toNat_ofNat _ _

theorem absDiff_spec (a b : ℕ) :
    ((absDiff a b).1 : ℤ) * (if (absDiff a b).2 then -1 else 1) = (a : ℤ) - b := by
  by_cases h : b ≤ a
  · simp [absDiff, h]
  · simp [absDiff, h, Nat.cast_sub (Nat.le_of_not_le h)]

theorem absDiff_le {a b m : ℕ} (ha : a < m) (hb : b < m) : (absDiff a b).1 < m := by
  rw [absDiff]
  split_ifs <;> simp only <;> omega

theorem sign_xor (s t : Bool) :
    (if xor s t then (-1 : ℤ) else 1) = (if s then -1 else 1) * (if t then -1 else 1) := by
  cases s <;> cases t <;> rfl

def Holds (h l : ℕ) (x : ℤ) : Prop := l < ulongMod ∧ (h * ulongMod + l : ℤ) ≡ x [ZMOD 2 ^ 64]

variable {h l x : ℕ} {y : ℤ}

theorem shifted (x : ℕ) : x * base = hhalf x * ulongMod + lhup x := by
  simp only [hhalf, lhup, ulongMod, base]
  omega

theorem carry_eq {z : ℕ} (hl : l < ulongMod) (hz : z < ulongMod) :
    (if addLong l z < l then 1 else 0) * ulongMod + addLong l z = l + z := by
  by_cases h : addLong l z < l
  · rw [if_pos h]
    simp only [addLong, ulongMod] at h hl hz ⊢
    omega
  · rw [if_neg h]
    simp only [addLong, ulongMod] at h hl hz ⊢
    omega

theorem borrow_eq {z : ℕ} (hl : l < ulongMod) (hz : z < ulongMod) :
    l + (if l < subLong l z then 1 else 0) * ulongMod = subLong l z + z := by
  by_cases h : l < subLong l z
  · rw [if_pos h]
    simp only [subLong, ulongMod] at h hl hz ⊢
    omega
  · rw [if_neg h]
    simp only [subLong, ulongMod] at h hl hz ⊢
    omega

theorem Holds.addPair {a z k : ℕ} (hy : Holds h l y) (hk : k * ulongMod + addLong l z = l + z) :
    Holds (addLong h (addLong a k)) (addLong l z) (y + (a * ulongMod + z : ℕ)) := by
  refine ⟨addLong_lt _ _, ?_⟩
  have hy := hy.2
  generalize addLong l z = r at hk ⊢
  simp only [Int.ModEq, addLong, ulongMod] at hk hy ⊢
  omega

theorem Holds.subPair {a z k : ℕ} (hy : Holds h l y) (hk : l + k * ulongMod = subLong l z + z) :
    Holds (subLong h (addLong a k)) (subLong l z) (y - (a * ulongMod + z : ℕ)) := by
  refine ⟨subLong_lt _ _, ?_⟩
  have hy := hy.2
  generalize subLong l z = r at hk ⊢
  simp only [Int.ModEq, addLong, subLong, ulongMod] at hk hy ⊢
  omega

theorem Holds.add (hy : Holds h l y) :
    Holds (addLong h (addLong (hhalf x) (if addLong l (lhup x) < l then 1 else 0)))
      (addLong l (lhup x)) (y + x * base) := by
  have := hy.addPair (a := hhalf x) (carry_eq hy.1 (lhup_lt x))
  rwa [← shifted, Nat.cast_mul] at this

theorem Holds.sub (hy : Holds h l y) :
    Holds (subLong h (addLong (hhalf x) (if l < subLong l (lhup x) then 1 else 0)))
      (subLong l (lhup x)) (y - x * base) := by
  have := hy.subPair (a := hhalf x) (borrow_eq hy.1 (lhup_lt x))
  rwa [← shifted, Nat.cast_mul] at this

theorem Holds.addLow (hx : x < ulongMod) (hy : Holds h l y) :
    Holds (if addLong l x < x then addLong h 1 else h) (addLong l x) (y + x) := by
  obtain ⟨hl, hy⟩ := hy
  refine ⟨addLong_lt _ _, ?_⟩
  have hcarry := carry_eq hx hl
  rw [show addLong x l = addLong l x by rw [addLong, addLong, Nat.add_comm]] at hcarry
  generalize addLong l x = r at hcarry ⊢
  split_ifs at hcarry ⊢ with h
  · simp only [Int.ModEq, addLong, ulongMod] at hcarry hy ⊢
    omega
  · simp only [Int.ModEq, ulongMod] at hcarry hy ⊢
    omega

theorem holds_high (x : ℕ) :
    Holds (addLong x (hhalf x)) (lhup x) (x * ulongMod + x * base) := by
  refine ⟨lhup_lt x, ?_⟩
  have hx := shifted x
  generalize lhup x = z at hx ⊢
  generalize hhalf x = a at hx ⊢
  simp only [Int.ModEq, addLong, ulongMod, base] at hx ⊢
  omega

theorem Holds.toNat {n : ℕ} (hy : Holds h l y) (hn : y = n) (hlt : n < ulongMod * ulongMod) :
    (ofLongs h l).toNat = n := by
  have hmod : ((h * ulongMod + l : ℕ) : ℤ) ≡ (n : ℕ) [ZMOD (2 ^ 64 : ℕ)] := by
    rw [hn] at hy
    exact_mod_cast hy.2
  rw [toNat_ofLongs, (Int.natCast_modEq_iff.1 hmod : _ % _ = _)]
  exact Nat.mod_eq_of_lt (hlt.trans_eq (by decide))

theorem product_eq (m u1 u0 v1 v0 du dv : ℤ) (hu : du = u1 - u0) (hv : dv = v0 - v1) :
    (u1 * m + u0) * (v1 * m + v0) =
      u1 * v1 * (m * m) + u1 * v1 * m + du * dv * m + u0 * v0 * m + u0 * v0 := by
  rw [hu, hv]
  ring

theorem lmulq_spec {u v : ℕ} (hu : u < ulongMod) (hv : v < ulongMod) :
    (lmulq u v).toNat = u * v := by
  have hu1 := hhalf_lt hu
  have hv1 := hhalf_lt hv
  have hu0 := lhalf_lt u
  have hv0 := lhalf_lt v
  have hlt : u * v < ulongMod * ulongMod := Nat.mul_lt_mul'' hu hv
  have hueq := hhalf_mul_add_lhalf u
  have hveq := hhalf_mul_add_lhalf v
  have hud := absDiff_le hu1 hu0
  have hvd := absDiff_le hv0 hv1
  rw [lmulq]
  simp only [mulLong_eq hu0 hv0, mulLong_eq hu1 hv1, mulLong_eq hud hvd]
  by_cases hsmall : hhalf u = 0 ∧ hhalf v = 0
  · -- both longs are halves
    rw [if_pos hsmall]
    rw [hsmall.1, Nat.zero_mul, Nat.zero_add] at hueq
    rw [hsmall.2, Nat.zero_mul, Nat.zero_add] at hveq
    rw [BitVec.toNat_ofNat, hueq, hveq, Nat.mod_eq_of_lt (hlt.trans_eq (by decide))]
  rw [if_neg hsmall]
  have hlow : lhalf u * lhalf v < ulongMod := Nat.mul_lt_mul'' hu0 hv0
  have hsign := sign_xor (absDiff (hhalf u) (lhalf u)).2 (absDiff (lhalf v) (hhalf v)).2
  have hprod := product_eq base (hhalf u) (lhalf u) (hhalf v) (lhalf v) _ _
    (absDiff_spec (hhalf u) (lhalf u)) (absDiff_spec (lhalf v) (hhalf v))
  have hval : ((hhalf u : ℤ) * base + lhalf u) * (hhalf v * base + lhalf v) = (u * v : ℕ) := by
    rw [Nat.cast_mul]
    congr 1
    · exact_mod_cast hueq
    · exact_mod_cast hveq
  rw [hval, (by decide : (base * base : ℤ) = ulongMod)] at hprod
  cases hneg : xor (absDiff (hhalf u) (lhalf u)).2 (absDiff (lhalf v) (hhalf v)).2 with
  | true =>
    simp only [if_true]
    refine Holds.toNat ((holds_high _).sub.add.addLow hlow) ?_ hlt
    rw [hneg, if_pos rfl] at hsign
    rw [hprod]
    push_cast
    linear_combination (absDiff (hhalf u) (lhalf u)).1 * (absDiff (lhalf v) (hhalf v)).1 * base *
      hsign
  | false =>
    simp only [Bool.false_eq_true, if_false]
    refine Holds.toNat ((holds_high _).add.add.addLow hlow) ?_ hlt
    rw [hneg, if_neg (by decide)] at hsign
    rw [hprod]
    push_cast
    linear_combination (absDiff (hhalf u) (lhalf u)).1 * (absDiff (lhalf v) (hhalf v)).1 * base *
      hsign

theorem highLong_lt (x : BitVec 64) : highLong x < ulongMod := by
  have := x.isLt
  simp only [highLong, ulongMod]
  omega

theorem lowLong_lt (x : BitVec 64) : lowLong x < ulongMod := Nat.mod_lt _ (by decide)

theorem toNat_eq_longs (x : BitVec 64) : x.toNat = highLong x * ulongMod + lowLong x :=
  (Nat.div_add_mod' x.toNat ulongMod).symm

theorem addLong_modEq (a b : ℕ) : (addLong a b : ℤ) ≡ a + b [ZMOD ulongMod] := by
  rw [addLong]
  push_cast
  exact Int.mod_modEq _ _

theorem mulLong_modEq (a b : ℕ) : (mulLong a b : ℤ) ≡ a * b [ZMOD ulongMod] := by
  rw [mulLong]
  push_cast
  exact Int.mod_modEq _ _

theorem subLong_zero_modEq (a : ℕ) : (subLong 0 a : ℤ) ≡ -a [ZMOD ulongMod] := by
  simp only [Int.ModEq, subLong, ulongMod]
  omega

theorem high_modEq {high mid lh ll : ℕ} {u1 u0 v1 v0 : ℤ} (neg : Bool)
    (hhigh : (high : ℤ) ≡ u1 * v1 [ZMOD ulongMod])
    (hmid : (mid : ℤ) * (if neg then -1 else 1) ≡ (u1 - u0) * (v0 - v1) [ZMOD ulongMod])
    (hlow : (lh * ulongMod + ll : ℤ) = u0 * v0) :
    (addLong (addLong (addLong high (if neg then subLong 0 mid else mid)) ll) lh : ℤ) ≡
      u1 * v0 + u0 * v1 + lh [ZMOD ulongMod] := by
  have hneg : ((if neg then subLong 0 mid else mid : ℕ) : ℤ) ≡
      (mid : ℤ) * (if neg then -1 else 1) [ZMOD ulongMod] := by
    cases neg with
    | true => simpa using subLong_zero_modEq mid
    | false => simp
  have hll : (ll : ℤ) ≡ u0 * v0 [ZMOD ulongMod] := by
    rw [← hlow]
    exact (Int.modEq_add_fac_self.symm : (ll : ℤ) ≡ ll + ulongMod * lh [ZMOD ulongMod]).trans
      (by rw [Int.add_comm, Int.mul_comm])
  calc (addLong (addLong (addLong high (if neg then subLong 0 mid else mid)) ll) lh : ℤ)
      ≡ ((addLong (addLong high (if neg then subLong 0 mid else mid)) ll : ℕ) : ℤ) + lh
        [ZMOD ulongMod] := addLong_modEq _ _
    _ ≡ (addLong high (if neg then subLong 0 mid else mid) : ℕ) + ll + lh [ZMOD ulongMod] :=
        (addLong_modEq _ _).add_right _
    _ ≡ high + (if neg then subLong 0 mid else mid : ℕ) + ll + lh [ZMOD ulongMod] :=
        ((addLong_modEq _ _).add_right _).add_right _
    _ ≡ u1 * v1 + (u1 - u0) * (v0 - v1) + u0 * v0 + lh [ZMOD ulongMod] :=
        ((hhigh.add (hneg.trans hmid)).add hll).add_right _
    _ = u1 * v0 + u0 * v1 + lh := by ring

theorem ofLongs_eq_mul {x y : BitVec 64} {h lh ll : ℕ}
    (hh : (h : ℤ) ≡ highLong x * lowLong y + lowLong x * highLong y + lh [ZMOD ulongMod])
    (hlow : (lh * ulongMod + ll : ℤ) = lowLong x * lowLong y) : ofLongs h ll = x * y := by
  have hmod : ((h * ulongMod + ll : ℕ) : ℤ) ≡ (x.toNat * y.toNat : ℕ)
      [ZMOD (ulongMod * ulongMod : ℕ)] := by
    rw [toNat_eq_longs x, toNat_eq_longs y]
    push_cast
    obtain ⟨k, hk⟩ := hh.dvd
    refine (Int.modEq_iff_dvd).2 ⟨k + highLong x * highLong y, ?_⟩
    linear_combination ulongMod * hk - hlow
  refine BitVec.eq_of_toNat_eq ?_
  rw [toNat_ofLongs, BitVec.toNat_mul]
  exact Int.natCast_modEq_iff.1 hmod

theorem product_spec (x y : BitVec 64) :
    (if highLong x = 0 ∧ highLong y = 0 then lmulq (lowLong x) (lowLong y)
      else ofLongs
        (addLong (addLong (addLong (mulLong (highLong x) (highLong y))
          (if xor (absDiff (highLong x) (lowLong x)).2 (absDiff (lowLong y) (highLong y)).2 then
            subLong 0 (mulLong (absDiff (highLong x) (lowLong x)).1
              (absDiff (lowLong y) (highLong y)).1)
          else mulLong (absDiff (highLong x) (lowLong x)).1 (absDiff (lowLong y) (highLong y)).1))
          (lowLong (lmulq (lowLong x) (lowLong y))))
          (highLong (lmulq (lowLong x) (lowLong y))))
        (lowLong (lmulq (lowLong x) (lowLong y)))) = x * y := by
  have hlow := lmulq_spec (lowLong_lt x) (lowLong_lt y)
  by_cases hsmall : highLong x = 0 ∧ highLong y = 0
  · rw [if_pos hsmall]
    refine BitVec.eq_of_toNat_eq ?_
    have hx := toNat_eq_longs x
    have hy := toNat_eq_longs y
    rw [hsmall.1, Nat.zero_mul, Nat.zero_add] at hx
    rw [hsmall.2, Nat.zero_mul, Nat.zero_add] at hy
    rw [hlow, BitVec.toNat_mul, hx, hy, Nat.mod_eq_of_lt]
    exact (Nat.mul_lt_mul'' (lowLong_lt x) (lowLong_lt y)).trans_eq (by decide)
  · rw [if_neg hsmall]
    rw [toNat_eq_longs (lmulq _ _)] at hlow
    have hlow' : (highLong (lmulq (lowLong x) (lowLong y)) * ulongMod +
        lowLong (lmulq (lowLong x) (lowLong y)) : ℤ) = lowLong x * lowLong y := by
      exact_mod_cast hlow
    have hud := absDiff_spec (highLong x) (lowLong x)
    have hvd := absDiff_spec (lowLong y) (highLong y)
    refine ofLongs_eq_mul (high_modEq _ (mulLong_modEq _ _) ?_ hlow') hlow'
    refine ((mulLong_modEq _ _).mul_right _).trans ?_
    rw [← hud, ← hvd, sign_xor]
    exact congrArg (· % (ulongMod : ℤ)) (by ring)

/-- `__muldi3` computes products modulo `2 ^ 64`, and `__lmulq` exact ones. -/
theorem muldi3_spec (a b : BitVec 64) (u v : BitVec 32) :
    muldi3 a b = a * b ∧ (lmulq u.toNat v.toNat).toNat = u.toNat * v.toNat := by
  refine ⟨?_, lmulq_spec u.isLt v.isLt⟩
  rw [muldi3]
  simp only [product_spec]
  rw [absQuad, absQuad]
  split_ifs <;> simp_all

end Bsdi.Quad
