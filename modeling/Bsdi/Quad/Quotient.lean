import Bsdi.Quad.LongDivision

/-!
# Quotients

`__qdivrem` computes quotient and remainder of unsigned quads. `__divdi3` and `__moddi3` give the
results of it a sign; the sign of the remainder is that of the quotient.
-/

namespace Bsdi.Quad

open Bsdi.Lib

variable {u v : ℕ → ℕ} {p vp up m n t d fuel : ℕ}

theorem digital_digits (x : BitVec 64) : Digital (digits x) := by
  intro k
  have hhigh := highLong_lt x
  have hlow := lowLong_lt x
  unfold digits
  split
  · exact hhalf_lt hhigh
  · exact lhalf_lt _
  · exact hhalf_lt hlow
  · exact lhalf_lt _
  · decide

theorem num_digits (x : BitVec 64) : num base (digits x) 1 4 = x.toNat := by
  have hhigh := hhalf_mul_add_lhalf (highLong x)
  have hlow := hhalf_mul_add_lhalf (lowLong x)
  rw [toNat_eq_longs x, ← hhigh, ← hlow]
  simp only [num, digits]
  rw [(by decide : ulongMod = base * base)]
  ring

theorem toNat_ofDigits (hu : Digital u) : (ofDigits u).toNat = num base u 1 4 := by
  have hlt : num base u 1 4 < base ^ 4 := num_lt fun i _ => hu _
  have hlongs : (u 1 * base + u 2) * ulongMod + (u 3 * base + u 4) = num base u 1 4 := by
    simp only [num]
    rw [(by decide : ulongMod = base * base)]
    ring
  rw [ofDigits, combine_eq (hu 1) (hu 2), combine_eq (hu 3) (hu 4), toNat_ofLongs, hlongs]
  exact Nat.mod_eq_of_lt (hlt.trans_eq (by decide))

theorem ofDigits_eq (hu : Digital u) : ofDigits u = BitVec.ofNat 64 (num base u 1 4) := by
  rw [← toNat_ofDigits hu, BitVec.ofNat_toNat, BitVec.setWidth_eq]

theorem divisorLength_spec (hn : 2 ≤ n) (hzero : ∀ k, 1 ≤ k → k ≤ p → v k = 0) :
    (divisorLength v n p).2 + (divisorLength v n p).1 = p + n ∧
      1 ≤ (divisorLength v n p).1 ∧
      ((divisorLength v n p).1 ≠ 1 → v ((divisorLength v n p).2 + 1) ≠ 0) ∧
      ∀ k, 1 ≤ k → k ≤ (divisorLength v n p).2 → v k = 0 := by
  induction n generalizing p with
  | zero => omega
  | succ n ih =>
    rw [divisorLength]
    by_cases hv : v (p + 1) = 0
    · have hzero' : ∀ k, 1 ≤ k → k ≤ p + 1 → v k = 0 := fun k h₁ hk => by
        rcases Nat.le_succ_iff.1 hk with hk | rfl
        · exact hzero k h₁ hk
        · exact hv
      rw [if_pos hv]
      by_cases hone : n = 1
      · rw [if_pos hone]
        exact ⟨by simp only; omega, Nat.le_refl 1, fun h => absurd rfl h, hzero'⟩
      · rw [if_neg hone]
        obtain ⟨hsum, hrest⟩ := ih (by omega) hzero'
        exact ⟨by omega, hrest⟩
    · rw [if_neg hv]
      exact ⟨rfl, by simp, fun _ => hv, hzero⟩

theorem skipZeros_spec (fuel : ℕ) (hfuel : m < fuel) (hne : num base u (p + 1) (m + 1) ≠ 0)
    (hzero : ∀ k ≤ p, u k = 0) :
    (skipZeros u fuel m p).2 + (skipZeros u fuel m p).1 = p + m ∧
      u ((skipZeros u fuel m p).2 + 1) ≠ 0 ∧ ∀ k ≤ (skipZeros u fuel m p).2, u k = 0 := by
  induction fuel generalizing m p with
  | zero => omega
  | succ fuel ih =>
    rw [skipZeros]
    by_cases hu : u (p + 1) = 0
    · rw [if_pos hu]
      cases m with
      | zero => exact absurd (by simpa using hu) hne
      | succ m =>
        rw [num_cons, hu, Nat.zero_mul, Nat.zero_add] at hne
        obtain ⟨hsum, hrest⟩ := ih (m := m) (p := p + 1) (by omega) hne fun k hk => by
          rcases Nat.le_succ_iff.1 hk with hk | rfl
          · exact hzero k hk
          · exact hu
        exact ⟨by rw [Nat.add_sub_cancel]; omega, hrest⟩
    · rw [if_neg hu]
      exact ⟨rfl, hu, hzero⟩

theorem normShift_spec (ht : t = n * 2 ^ d) (hlt : t < base) (hfuel : base / 2 ≤ t * 2 ^ fuel) :
    base / 2 ≤ n * 2 ^ normShift fuel t d ∧ n * 2 ^ normShift fuel t d < base := by
  induction fuel generalizing t d with
  | zero => exact ⟨by simpa [normShift, ht] using hfuel, ht ▸ hlt⟩
  | succ fuel ih =>
    rw [normShift]
    split_ifs with hsmall
    · have hdouble : t * 2 < base := by
        simp only [base] at hsmall ⊢
        omega
      have hlong : t * 2 % ulongMod = t * 2 := Nat.mod_eq_of_lt (hdouble.trans (by decide))
      rw [hlong]
      exact ih (by rw [ht, Nat.pow_succ]; ring) hdouble
        (hfuel.trans_eq (by rw [Nat.pow_succ]; ring))
    · exact ⟨ht ▸ Nat.le_of_not_lt hsmall, ht ▸ hlt⟩

theorem divDigit_spec (hu : Digital u) (ht : 0 < t) (htB : t < base) :
    divDigit u t =
      (BitVec.ofNat 64 (num base u 1 4 / t), BitVec.ofNat 64 (num base u 1 4 % t)) := by
  have hstep : ∀ r b, r < t → b < base →
      combine r b = r * base + b ∧ lhalf ((r * base + b) / t) = (r * base + b) / t := by
    intro r b hr hb
    refine ⟨combine_eq (hr.trans htB) hb, Nat.mod_eq_of_lt ?_⟩
    have : (r + 1) * base ≤ t * base := Nat.mul_le_mul_right base hr
    rw [Nat.div_lt_iff_lt_mul ht, Nat.mul_comm base]
    rw [Nat.add_one_mul] at this
    omega
  have hr₁ := Nat.mod_lt (u 1) ht
  obtain ⟨hc₂, hq₂⟩ := hstep (u 1 % t) (u 2) hr₁ (hu 2)
  have hd₁ := Nat.div_add_mod' (u 1) t
  have hq₁ : lhalf (u 1 / t) = u 1 / t := Nat.mod_eq_of_lt ((Nat.div_le_self _ _).trans_lt (hu 1))
  have hd₂ := Nat.div_add_mod' (u 1 % t * base + u 2) t
  have hr₂ := Nat.mod_lt (u 1 % t * base + u 2) ht
  rw [divDigit]
  simp only [hc₂]
  generalize hb₂ : u 1 % t * base + u 2 = b₂ at *
  obtain ⟨hc₃, hq₃⟩ := hstep (b₂ % t) (u 3) hr₂ (hu 3)
  have hd₃ := Nat.div_add_mod' (b₂ % t * base + u 3) t
  have hr₃ := Nat.mod_lt (b₂ % t * base + u 3) ht
  simp only [hc₃]
  generalize hb₃ : b₂ % t * base + u 3 = b₃ at *
  obtain ⟨hc₄, hq₄⟩ := hstep (b₃ % t) (u 4) hr₃ (hu 4)
  have hd₄ := Nat.div_add_mod' (b₃ % t * base + u 4) t
  have hr₄ := Nat.mod_lt (b₃ % t * base + u 4) ht
  simp only [hc₄, hq₁, hq₂, hq₃, hq₄]
  have hlong : ulongMod = base * base := rfl
  have hnum : num base u 1 4 =
      (((u 1 / t * base + b₂ / t) * base + b₃ / t) * base + (b₃ % t * base + u 4) / t) * t +
        (b₃ % t * base + u 4) % t := by
    simp only [num]
    linear_combination base * base * base * hd₁.symm + base * base * hb₂ +
      base * base * hd₂.symm + base * hb₃ + base * hd₃.symm + hd₄.symm
  obtain ⟨hquot, hrem⟩ := (Nat.div_mod_unique ht).2
    ⟨((hnum.trans (Nat.add_comm _ _)).trans (congrArg _ (Nat.mul_comm _ _))).symm, hr₄⟩
  rw [combine_eq (hq₁ ▸ lhalf_lt _) (hq₂ ▸ lhalf_lt _),
    combine_eq (hq₃ ▸ lhalf_lt _) (hq₄ ▸ lhalf_lt _), ofLongs, hquot, hrem, hlong]
  refine congrArg₂ Prod.mk (congrArg (BitVec.ofNat 64) ?_) rfl
  ring

theorem divLoop_digital {vp n cnt p q : ℕ} {u qs : ℕ → ℕ} (hqs : Digital qs) :
    Digital (divLoop v vp n cnt p q u qs).2 := by
  induction cnt generalizing p q u qs with
  | zero => exact hqs
  | succ cnt ih => exact ih (hqs.update (lhalf_lt _))

theorem normShift_le : normShift fuel t d ≤ d + fuel := by
  induction fuel generalizing t d with
  | zero => exact Nat.le_refl d
  | succ fuel ih =>
    rw [normShift]
    split_ifs
    · exact ih.trans (by omega)
    · exact Nat.le_add_right _ _

theorem shl_exact (p len : ℕ) {sh : ℕ} (h : sh ≤ halfBits) (hu : Digital u)
    (hlt : num base u p (len + 1) * 2 ^ sh < base ^ (len + 1)) {w : ℕ → ℕ}
    (hw : w = if 0 < sh then shl sh p len u else u) :
    Digital w ∧ num base w p (len + 1) = num base u p (len + 1) * 2 ^ sh ∧
      ∀ k, k < p ∨ p + len < k → w k = u k := by
  subst hw
  by_cases hsh : 0 < sh
  · rw [if_pos hsh]
    obtain ⟨hdig, hnum, hsame⟩ := shl_spec p len h hu
    exact ⟨hdig, hnum.trans (Nat.mod_eq_of_lt hlt), hsame⟩
  · obtain rfl : sh = 0 := Nat.eq_zero_of_not_pos hsh
    rw [if_neg hsh]
    exact ⟨hu, (Nat.mul_one _).symm, fun k _ => rfl⟩

section ProgramD

variable {vp up : ℕ}

theorem divisor_shifted (hv : Digital v) (hn : 2 ≤ n) (hv1 : v (vp + 1) ≠ 0) (hd : d ≤ halfBits)
    (hlt : v (vp + 1) * 2 ^ d < base) {w : ℕ → ℕ}
    (hw : w = if 0 < d then shl d (vp + 1) (n - 1) v else v) :
    Digital w ∧ num base w (vp + 1) n = num base v (vp + 1) n * 2 ^ d ∧ w (vp + 1) ≠ 0 := by
  obtain ⟨k, rfl⟩ : ∃ k, n = k + 1 := ⟨n - 1, by omega⟩
  rw [Nat.add_sub_cancel] at hw
  have hrest : num base v (vp + 1 + 1) k < base ^ k := num_lt fun i _ => hv _
  have hcons : num base v (vp + 1) (k + 1) = v (vp + 1) * base ^ k + num base v (vp + 1 + 1) k :=
    num_cons
  have hfirst : (v (vp + 1) + 1) * 2 ^ d ≤ base := by
    rw [base_split hd] at hlt ⊢
    exact Nat.mul_le_mul_right _ (Nat.lt_of_mul_lt_mul_right hlt)
  obtain ⟨hdig, hnum, -⟩ := shl_exact (vp + 1) k hd hv (by
    calc num base v (vp + 1) (k + 1) * 2 ^ d < (v (vp + 1) + 1) * base ^ k * 2 ^ d :=
          Nat.mul_lt_mul_of_pos_right (by rw [hcons, Nat.add_one_mul]; omega) (Nat.two_pow_pos d)
      _ = (v (vp + 1) + 1) * 2 ^ d * base ^ k := by ring
      _ ≤ base * base ^ k := Nat.mul_le_mul_right _ hfirst
      _ = base ^ (k + 1) := by ring) hw
  refine ⟨hdig, hnum, fun hzero => ?_⟩
  have hlow : num base w (vp + 1 + 1) k < base ^ k := num_lt fun i _ => hdig _
  rw [num_cons, hzero, Nat.zero_mul, Nat.zero_add] at hnum
  have hge : base ^ k ≤ num base v (vp + 1) (k + 1) := by
    rw [hcons]
    exact Nat.le_add_right_of_le (Nat.le_mul_of_pos_left _ (Nat.pos_of_ne_zero hv1))
  have := Nat.le_mul_of_pos_right (num base v (vp + 1) (k + 1)) (Nat.two_pow_pos d)
  omega

theorem remainder_shifted {r : ℕ} (hd : d ≤ halfBits) (hu : Digital u) (hup : up + (m + n) = 4)
    (hzero : ∀ k < up, u k = 0) (hnum : num base u up (n + (m + 1)) = r * 2 ^ d)
    (hlt : r * 2 ^ d < base ^ n) {w : ℕ → ℕ}
    (hw : w = if 0 < d then Function.update (shr d (up + m) n u) (up + m) 0 else u) :
    Digital w ∧ num base w 1 4 = r := by
  -- the digits up to `up + m` are zero
  have hlead : num base u up (m + 1) = 0 := by
    refine num_leading (n := n) ?_
    rwa [Nat.add_comm (m + 1), hnum]
  have hlead' := (num_eq_zero (by decide)).1 hlead
  have hzero' : ∀ k ≤ up + m, u k = 0 := fun k hk => by
    by_cases hkup : k < up
    · exact hzero k hkup
    · have := hlead' (k - up) (by omega)
      rwa [Nat.add_sub_cancel' (Nat.le_of_not_lt hkup)] at this
  have hlast : num base u (up + m) (n + 1) = r * 2 ^ d := by
    rw [← hnum, show n + (m + 1) = m + (n + 1) by omega]
    exact (num_of_leading fun i hi => hzero' _ (by omega)).symm
  have hfour : ∀ w' : ℕ → ℕ, (∀ k, 1 ≤ k → k ≤ up + m → w' k = 0) →
      num base w' 1 4 = num base w' (up + m + 1) n := by
    intro w' hw'
    rw [show 4 = (up + m) + n by omega, num_of_leading fun i hi => hw' _ (by omega) (by omega),
      Nat.add_comm 1]
  subst hw
  by_cases hpos : 0 < d
  · rw [if_pos hpos]
    obtain ⟨hdig, hshr, hsame⟩ := shr_spec (up + m) n hd hu
    refine ⟨hdig.update (by decide), ?_⟩
    rw [hfour _ fun k _ hk => ?_]
    · rw [num_congr (u := shr d (up + m) n u) (a := up + m + 1) fun i _ =>
        Function.update_of_ne (by omega : up + m + 1 + i ≠ up + m) _ _, hshr, hlast,
        Nat.mul_div_cancel _ (Nat.two_pow_pos d)]
      exact Nat.mod_eq_of_lt ((Nat.le_mul_of_pos_right r (Nat.two_pow_pos d)).trans_lt hlt)
    · rw [Function.update_apply]
      split_ifs with hk'
      · rfl
      · rw [hsame k (Or.inl hk), hzero' k hk]
  · obtain rfl : d = 0 := Nat.eq_zero_of_not_pos hpos
    rw [if_neg hpos]
    refine ⟨hu, ?_⟩
    rw [hfour u fun k _ hk => hzero' k hk]
    rw [num_cons, hzero' (up + m) (Nat.le_refl _), Nat.zero_mul, Nat.zero_add] at hlast
    simpa using hlast

theorem programD_spec (hu : Digital u) (hv : Digital v) (hn : 2 ≤ n)
    (hup : up + (m + n) = 4) (hzero : ∀ k ≤ up, u k = 0) (hv1 : v (vp + 1) ≠ 0) :
    programD u v up vp m n =
      (BitVec.ofNat 64 (num base u (up + 1) (m + n) / num base v (vp + 1) n),
        BitVec.ofNat 64 (num base u (up + 1) (m + n) % num base v (vp + 1) n)) := by
  have hd : normShift halfBits (v (vp + 1)) 0 ≤ halfBits := normShift_le.trans (by omega)
  have hlt : v (vp + 1) * 2 ^ normShift halfBits (v (vp + 1)) 0 < base :=
    (normShift_spec (Nat.mul_one _).symm (hv _) (by
      exact (by decide : base / 2 ≤ 1 * 2 ^ halfBits).trans
        (Nat.mul_le_mul_right _ (Nat.pos_of_ne_zero hv1)))).2
  rw [programD]
  generalize normShift halfBits (v (vp + 1)) 0 = d at *
  have hpow : 0 < 2 ^ d := Nat.two_pow_pos d
  -- D1
  obtain ⟨hv', hV, hv1'⟩ := divisor_shifted hv hn hv1 hd hlt rfl
  have hcons : num base u up (m + n + 1) = num base u (up + 1) (m + n) := by
    rw [num_cons, hzero up (Nat.le_refl up), Nat.zero_mul, Nat.zero_add]
  have hUlt : num base u (up + 1) (m + n) < base ^ (m + n) := num_lt fun i _ => hu _
  have hdB : 2 ^ d < base :=
    (Nat.le_mul_of_pos_left _ (Nat.pos_of_ne_zero hv1)).trans_lt hlt
  obtain ⟨hu', hU, hsame⟩ := shl_exact up (m + n) hd hu (by
    rw [hcons, Nat.pow_succ]
    exact Nat.mul_lt_mul'' hUlt hdB) rfl
  have hzero' := fun k hk => (hsame k (Or.inl hk)).trans (hzero k (Nat.le_of_lt hk))
  dsimp only
  generalize (if 0 < d then shl d (vp + 1) (n - 1) v else v) = v' at *
  generalize (if 0 < d then shl d up (m + n) u else u) = u' at *
  rw [hcons] at hU
  generalize num base u (up + 1) (m + n) = U at *
  have hVlt : num base v' (vp + 1) n < base ^ n := num_lt fun i _ => hv' _
  have hVge : base ^ (n - 1) ≤ num base v (vp + 1) n := by
    conv_rhs => rw [show n = n - 1 + 1 by omega, num_cons]
    exact Nat.le_add_right_of_le (Nat.le_mul_of_pos_left _ (Nat.pos_of_ne_zero hv1))
  rw [hV] at hVlt
  -- the first `n` digits are less than the divisor
  have hfirst : num base u' up n < num base v' (vp + 1) n := by
    rw [hV]
    have happ : num base u' up (n + (m + 1)) =
        num base u' up n * base ^ (m + 1) + num base u' (up + n) (m + 1) := num_append
    rw [show n + (m + 1) = m + n + 1 by omega, hU] at happ
    refine Nat.lt_of_mul_lt_mul_right (a := base ^ (m + 1)) ?_
    calc num base u' up n * base ^ (m + 1) ≤ U * 2 ^ d := by omega
      _ < base ^ (m + n) * 2 ^ d := Nat.mul_lt_mul_of_pos_right hUlt hpow
      _ = base ^ (n - 1) * 2 ^ d * base ^ (m + 1) := by
        rw [show m + n = n - 1 + (m + 1) by omega, Nat.pow_add]
        ring
      _ ≤ num base v (vp + 1) n * 2 ^ d * base ^ (m + 1) :=
        Nat.mul_le_mul_right _ (Nat.mul_le_mul_right _ hVge)
  obtain ⟨hdig, hquot, hrem, hbefore, hqs⟩ := divLoop_spec (m + 1) (p := up) (q := 4 - m)
    (w := fun _ => 0) hu' hv' hn hv1' hfirst
  have hqdig : Digital (divLoop v' vp n (m + 1) up (4 - m) u' fun _ => 0).2 :=
    divLoop_digital fun _ => by decide
  generalize divLoop v' vp n (m + 1) up (4 - m) u' (fun _ => 0) = r at *
  obtain ⟨u'', qs⟩ := r
  dsimp only at hdig hquot hrem hbefore hqs hqdig ⊢
  generalize num base v (vp + 1) n = V at *
  rw [show n + (m + 1) = m + n + 1 by omega, hU, hV] at hquot hrem
  rw [Nat.mul_div_mul_right _ _ hpow] at hquot
  rw [Nat.mul_mod_mul_right, ← show n + (m + 1) = m + n + 1 by omega] at hrem
  have hVpos : 0 < V := (Nat.pow_pos (by decide)).trans_le hVge
  -- D8
  obtain ⟨hrdig, hr⟩ := remainder_shifted hd hdig hup
    (fun k hk => (hbefore k hk).trans (hzero' k hk)) hrem
    ((Nat.mul_lt_mul_of_pos_right (Nat.mod_lt U hVpos) hpow).trans hVlt) rfl
  have hq : num base qs 1 4 = U / V := by
    rw [show 4 = (3 - m) + (m + 1) by omega, num_of_leading fun i hi => hqs _ (by omega),
      show 1 + (3 - m) = 4 - m by omega, hquot]
  rw [ofDigits_eq hqdig, ofDigits_eq hrdig, hq, hr]

end ProgramD

theorem qdivrem_eq (u : BitVec 64) {v : BitVec 64} (h : v ≠ 0) :
    qdivrem u v = some (u / v, u % v) := by
  have hvne : v.toNat ≠ 0 := fun hzero => h (BitVec.eq_of_toNat_eq hzero)
  rw [qdivrem, if_neg h]
  by_cases hlt : u < v
  · rw [if_pos hlt]
    rw [BitVec.lt_def] at hlt
    refine congrArg some (Prod.ext (BitVec.eq_of_toNat_eq ?_) (BitVec.eq_of_toNat_eq ?_))
    · rw [BitVec.toNat_udiv, Nat.div_eq_of_lt hlt]
      rfl
    · rw [BitVec.toNat_umod, Nat.mod_eq_of_lt hlt]
  · rw [if_neg hlt]
    rw [BitVec.lt_def, Nat.not_lt] at hlt
    have hu := digital_digits u
    have hv := digital_digits v
    have hU := num_digits u
    have hV := num_digits v
    have hresult : (BitVec.ofNat 64 (u.toNat / v.toNat), BitVec.ofNat 64 (u.toNat % v.toNat)) =
        (u / v, u % v) := by
      rw [BitVec.udiv_def, BitVec.umod_def]
    obtain ⟨hsum, hone, hv1, hvzero⟩ := divisorLength_spec (v := digits v) (n := 4) (p := 0)
      (by omega) fun k h₁ h₂ => by omega
    dsimp only
    generalize divisorLength (digits v) 4 0 = r at *
    obtain ⟨n, vp⟩ := r
    dsimp only at hsum hone hv1 hvzero ⊢
    have hV' : num base (digits v) (vp + 1) n = v.toNat := by
      rw [← hV, show 4 = vp + n by omega, num_of_leading fun i hi => hvzero _ (by omega) (by omega),
        Nat.add_comm 1]
    by_cases hn : n = 1
    · subst hn
      rw [num_one] at hV'
      rw [if_pos rfl, divDigit_spec hu (by omega) (hv _), hU, hV', hresult]
    · rw [if_neg hn]
      have hge : base ^ (n - 1) ≤ v.toNat := by
        rw [← hV', show n = n - 1 + 1 by omega, num_cons]
        exact Nat.le_add_right_of_le (Nat.le_mul_of_pos_left _ (Nat.pos_of_ne_zero (hv1 hn)))
      -- the dividend is not less than the divisor, so its zeros end in time
      have hne : num base (digits u) (0 + 1) (4 - n + 1) ≠ 0 := fun hzero => by
        have happ : num base (digits u) 1 (4 - n + 1 + (n - 1)) = _ := num_append
        have hlow : num base (digits u) (1 + (4 - n + 1)) (n - 1) < base ^ (n - 1) :=
          num_lt fun i _ => hu _
        rw [show 4 - n + 1 + (n - 1) = 4 by omega, hU, hzero, Nat.zero_mul, Nat.zero_add] at happ
        omega
      obtain ⟨hsum', hne', huzero⟩ := skipZeros_spec 4 (by omega) hne fun k hk => by
        rw [Nat.le_zero.1 hk]
        rfl
      generalize skipZeros (digits u) 4 (4 - n) 0 = r at *
      obtain ⟨m, up⟩ := r
      dsimp only at hsum' huzero ⊢
      have hU' : num base (digits u) (up + 1) (m + n) = u.toNat := by
        have hlead : num base (digits u) 1 (up + (m + n)) = num base (digits u) (1 + up) (m + n) :=
          num_of_leading fun i hi => huzero _ (by omega)
        rw [← hU, Nat.add_comm up, ← hlead, show up + (m + n) = 4 by omega]
      rw [programD_spec hu hv (by omega) (by omega) huzero (hv1 hn), hU', hV', hresult]

/-- `__qdivrem` returns quotient and remainder, for every divisor but zero. -/
theorem qdivrem_spec (u v : BitVec 64) (h : v ≠ 0) :
    ∃ q r, qdivrem u v = some (q, r) ∧ q.toNat = u.toNat / v.toNat ∧
      r.toNat = u.toNat % v.toNat :=
  ⟨u / v, u % v, qdivrem_eq u h, BitVec.toNat_udiv, BitVec.toNat_umod⟩

theorem qdivrem_spec_three :
    ∃ q r, qdivrem 0x8000000000000000 3 = some (q, r) ∧
      q.toNat = (0x8000000000000000 : BitVec 64).toNat / (3 : BitVec 64).toNat ∧
      r.toNat = (0x8000000000000000 : BitVec 64).toNat % (3 : BitVec 64).toNat :=
  qdivrem_spec 0x8000000000000000 3 (by decide)

end Bsdi.Quad
