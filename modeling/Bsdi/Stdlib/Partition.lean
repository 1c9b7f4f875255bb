import Bsdi.Stdlib.Moves

/-!
# Insertion sort and partition

The loops of `qsort.c`. Whatever the comparison function answers, they end, stay in the array and
rearrange it; if it answers by a total preorder, they sort or divide it.
-/

namespace Bsdi.Stdlib

open Bsdi.Lib Bsdi.Mergesort Function

/-- The comparison function answers by the comparison `c`. -/
structure Answers (cmp : ℕ → Elem → Elem → ℤ) (c : Elem → Elem → ℤ) : Prop where
  comparison : Comparison c
  eq : ∀ n x y, cmp n x y = c x y

variable {cmp : ℕ → Elem → Elem → ℤ} {c : Elem → Elem → ℤ} {A : ℕ → Elem}
  {es lo i j k l e n m N t : ℕ}

section

variable (cmp c lo)

theorem insertInner_spec (ht : Swaptype es t) (hes : 0 < es) (hkj : i + k < j) (hj : j ≤ N)
    (s : Proc) :
    ∃ s', insertInner cmp es lo (cell es lo N) (cell es lo i) t k s = some s' ∧
      Moved es lo i j s.mem s'.mem ∧
      (Answers cmp c → Inserting c (val es lo s.mem) i (i + k) j →
        SortedOn c (val es lo s'.mem) i j) := by
  induction k generalizing s with
  | zero => exact ⟨s, rfl, Moved.refl, fun _ h => h.first⟩
  | succ k ih =>
    have hpl : cell es lo i + (k + 1) * es = cell es lo (i + k + 1) := by
      rw [Nat.add_assoc, cell_add]
    have hpred : cell es lo (i + k + 1) - es = cell es lo (i + k) := by
      rw [cell_succ, Nat.add_sub_cancel]
    rw [insertInner]
    dsimp only
    rw [hpl, hpred, compare_elements cmp s (by omega) (by omega), Option.bind_eq_bind,
      Option.bind_some]
    dsimp only
    by_cases hlt : 0 < cmp s.calls (val es lo s.mem (i + k)) (val es lo s.mem (i + k + 1))
    · rw [if_pos hlt]
      obtain ⟨s₁, hswap, hval, hmoved⟩ := swap_elements lo ⟨s.mem, s.calls + 1⟩ ht
        hes (N := N) (k := i + k + 1) (l := i + k) (by omega) (by omega)
      obtain ⟨s', hinner, hmoved', hsorted⟩ := ih (by omega) s₁
      rw [hswap, Option.bind_eq_bind, Option.bind_some]
      refine ⟨s', hinner, (hmoved i j (by omega) hkj (by omega) (by omega)).trans hmoved', ?_⟩
      intro hc hins
      refine hsorted hc ?_
      rw [hval]
      exact hins.swap hc.comparison (by omega) hkj (hc.eq _ _ _ ▸ hlt)
    · rw [if_neg hlt]
      exact ⟨_, rfl, Moved.refl, fun hc hins =>
        hins.stop hc.comparison (hc.eq _ _ _ ▸ Int.not_lt.1 hlt)⟩

theorem insertOuter_spec (ht : Swaptype es t) (hes : 0 < es) (hm : i + k + m ≤ N) (s : Proc) :
    ∃ s', insertOuter cmp es lo (cell es lo N) (cell es lo i) t m k s = some s' ∧
      Moved es lo i (i + k + m) s.mem s'.mem ∧
      (Answers cmp c → SortedOn c (val es lo s.mem) i (i + k) →
        SortedOn c (val es lo s'.mem) i (i + k + m)) := by
  induction m generalizing k s with
  | zero => exact ⟨s, rfl, Moved.refl, fun _ h => h⟩
  | succ m ih =>
    obtain ⟨s₁, hinner, hmoved, hsorted⟩ :=
      insertInner_spec cmp c lo (i := i) (k := k) (N := N) ht hes (Nat.lt_succ_self (i + k))
        (by omega)
        s
    obtain ⟨s', houter, hmoved', hsorted'⟩ := ih (k := k + 1) (by omega) s₁
    have hend : i + (k + 1) + m = i + k + (m + 1) := by omega
    rw [hend] at hmoved' hsorted'
    refine ⟨s', ?_, (hmoved.mono (Nat.le_refl i) (by omega) (by omega)).trans hmoved', ?_⟩
    · rw [insertOuter, hinner]
      exact houter
    · intro hc hsort
      exact hsorted' hc (hsorted hc hsort.inserting)

end

theorem cell_sub_mul (h : m ≤ l) : cell es lo l - m * es = cell es lo (l - m) := by
  obtain ⟨d, rfl⟩ := Nat.exists_eq_add_of_le' h
  rw [cell_add, Nat.add_sub_cancel, Nat.add_sub_cancel]

section

variable (cmp es lo)

theorem med3_spec {x y z : ℕ} (hj : j ≤ N) (hx : i ≤ x ∧ x < j) (hy : i ≤ y ∧ y < j)
    (hz : i ≤ z ∧ z < j) (s : Proc) :
    ∃ r s', med3 cmp es lo (cell es lo N) (cell es lo x) (cell es lo y) (cell es lo z) s =
        some (cell es lo r, s') ∧ (i ≤ r ∧ r < j) ∧ s'.mem = s.mem := by
  have hxN := hx.2.trans_le hj
  have hyN := hy.2.trans_le hj
  have hzN := hz.2.trans_le hj
  rw [med3]
  simp only [compare_elements cmp _ hxN hyN, compare_elements cmp _ hyN hzN,
    compare_elements cmp _ hxN hzN, Option.bind_eq_bind, Option.bind_some]
  split_ifs
  · exact ⟨y, _, rfl, hy, rfl⟩
  · exact ⟨z, _, rfl, hz, rfl⟩
  · exact ⟨x, _, rfl, hx, rfl⟩
  · exact ⟨y, _, rfl, hy, rfl⟩
  · exact ⟨x, _, rfl, hx, rfl⟩
  · exact ⟨z, _, rfl, hz, rfl⟩

theorem pivot_spec (hn : 7 ≤ n) (hN : i + n ≤ N) (s : Proc) :
    ∃ r s', pivot cmp es lo (cell es lo N) (cell es lo i) n s = some (cell es lo r, s') ∧
      (i ≤ r ∧ r < i + n) ∧ s'.mem = s.mem := by
  have hpm : cell es lo i + n / 2 * es = cell es lo (i + n / 2) := cell_add.symm
  have hpn : cell es lo i + (n - 1) * es = cell es lo (i + (n - 1)) := cell_add.symm
  have hhalf : 2 * (n / 2) ≤ n ∧ n < 2 * (n / 2) + 2 := by omega
  have heighth : 8 * (n / 8) ≤ n := Nat.mul_div_le n 8
  rw [pivot]
  dsimp only
  rw [hpm, hpn]
  generalize n / 2 = m at *
  generalize n / 8 = d at *
  -- all elements that are looked at are in the part
  have hin : ∀ x < n, i ≤ i + x ∧ i + x < i + n := fun x hx =>
    ⟨Nat.le_add_right i x, Nat.add_lt_add_left hx i⟩
  by_cases h7 : 7 < n
  · rw [if_pos h7]
    have hfirst : i ≤ i ∧ i < i + n := hin 0 (Nat.zero_lt_of_lt h7)
    have hmiddle := hin m (by omega)
    have hlast := hin (n - 1) (by omega)
    by_cases h40 : 40 < n
    · rw [if_pos h40]
      have htwo : 2 * (d * es) = 2 * d * es := (Nat.mul_assoc _ _ _).symm
      have hback : ∀ x m, m ≤ x → i + x - m = i + (x - m) := fun x m h => Nat.add_sub_assoc h i
      have hd : d ≤ m ∧ 2 * d ≤ n - 1 ∧ d ≤ n - 1 ∧ m + d < n := by omega
      obtain ⟨hdm, h2dn, hdn, hmd⟩ := hd
      rw [htwo, ← cell_add, ← cell_add, ← cell_add,
        cell_sub_mul (hdm.trans (Nat.le_add_left _ _)),
        cell_sub_mul (h2dn.trans (Nat.le_add_left _ _)),
        cell_sub_mul (hdn.trans (Nat.le_add_left _ _)), hback m d hdm, hback _ _ h2dn,
        hback _ _ hdn]
      obtain ⟨r₁, s₁, h₁, hr₁, hs₁⟩ := med3_spec cmp es lo hN hfirst
        (hin d (hdn.trans_lt (by omega))) (hin (2 * d) (h2dn.trans_lt (by omega))) s
      obtain ⟨r₂, s₂, h₂, hr₂, hs₂⟩ := med3_spec cmp es lo hN
        (hin (m - d) ((Nat.sub_le m d).trans_lt (by omega))) hmiddle
        (Nat.add_assoc i m d ▸ hin (m + d) hmd) s₁
      obtain ⟨r₃, s₃, h₃, hr₃, hs₃⟩ := med3_spec cmp es lo hN
        (hin (n - 1 - 2 * d) ((Nat.sub_le _ _).trans_lt (by omega)))
        (hin (n - 1 - d) ((Nat.sub_le _ _).trans_lt (by omega))) hlast s₂
      obtain ⟨r, s', h, hr, hs⟩ := med3_spec cmp es lo hN hr₁ hr₂ hr₃ s₃
      refine ⟨r, s', ?_, hr, hs.trans (hs₃.trans (hs₂.trans hs₁))⟩
      simp only [h₁, h₂, h₃, h, Option.bind_eq_bind, Option.bind_some]
    · rw [if_neg h40]
      exact med3_spec cmp es lo hN hfirst hmiddle hlast s
  · rw [if_neg h7]
    exact ⟨i + m, s, rfl, hin m (by omega), rfl⟩

end

def partAt (es lo ia ib ic id : ℕ) (cnt : Bool) (s : Proc) : Part :=
  ⟨cell es lo ia, cell es lo ib, cell es lo ic, cell es lo id, cnt, s⟩

/-- Where the variables of the partition of the elements from `i` up to `e` are. A comparison
function that contradicts itself can make `pb` and `pc` pass each other. -/
structure Span (i e ia ib ic id : ℕ) : Prop where
  front : i < ia
  first : ia ≤ ib
  meet : ib ≤ ic + 2
  lower : i ≤ ic
  second : ic ≤ id
  back : id < e
  upper : ib ≤ e

theorem Span.lower_lt {ia ib ic id : ℕ} (h : Span i e ia ib ic id) : ic < e :=
  h.second.trans_lt h.back

section

variable {ia ib ic id : ℕ} (h : Span i e ia ib ic id) (hle : ib ≤ ic)

include h hle

theorem Span.lt_upper : ib < e := (hle.trans h.second).trans_lt h.back

theorem Span.first_lt : ia < e := h.first.trans_lt (h.lt_upper hle)

theorem Span.pivot_lt : i < e := h.front.trans (h.first_lt hle)

theorem Span.lt_lower : i < ic := h.front.trans_le (h.first.trans hle)

theorem Span.up : Span i e ia (ib + 1) ic id :=
  ⟨h.front, h.first.trans (Nat.le_succ ib), Nat.succ_le_succ (hle.trans (Nat.le_succ ic)), h.lower,
    h.second, h.back, h.lt_upper hle⟩

theorem Span.up_equal : Span i e (ia + 1) (ib + 1) ic id :=
  ⟨h.front.trans (Nat.lt_succ_self ia), Nat.succ_le_succ h.first, (h.up hle).meet, h.lower,
    h.second,
    h.back, h.lt_upper hle⟩

theorem Span.down : Span i e ia ib (ic - 1) id :=
  ⟨h.front, h.first, by omega, Nat.le_sub_one_of_lt (h.lt_lower hle),
    (Nat.sub_le ic 1).trans h.second, h.back, h.upper⟩

theorem Span.down_equal : Span i e ia ib (ic - 1) (id - 1) :=
  ⟨h.front, h.first, (h.down hle).meet, (h.down hle).lower, Nat.sub_le_sub_right h.second 1,
    (Nat.sub_le id 1).trans_lt h.back, h.upper⟩

theorem Span.exchange : Span i e ia (ib + 1) (ic - 1) id :=
  ⟨h.front, (h.up hle).first, by omega, (h.down hle).lower, (h.down hle).second, h.back,
    h.lt_upper hle⟩

end

/-- The elements that are less or greater than the pivot at `i`, with equal ones at both ends. -/
structure Divided (c : Elem → Elem → ℤ) (A : ℕ → Elem) (i e ia ib ic id : ℕ) : Prop where
  front : ∀ k, i < k → k < ia → c (A k) (A i) = 0
  less : ∀ k, ia ≤ k → k < ib → c (A k) (A i) < 0
  greater : ∀ k, ic < k → k ≤ id → 0 < c (A k) (A i)
  back : ∀ k, id < k → k < e → c (A k) (A i) = 0
  meet : ib ≤ ic + 1

section

variable {ia ib ic id fuel : ℕ}

theorem Divided.up_equal (h : Divided c A i e ia ib ic id) (hspan : Span i e ia ib ic id)
    (hle : ib ≤ ic) (heq : c (A ib) (A i) = 0) :
    Divided c (A ∘ Equiv.swap ia ib) i e (ia + 1) (ib + 1) ic id := by
  have hia := hspan.front
  have hab := hspan.first
  have hcd := hspan.second
  have hi : (A ∘ Equiv.swap ia ib) i = A i := swap_other A (by omega) (by omega)
  refine ⟨fun k hk hka => ?_, fun k hk hkb => ?_, fun k hk hkd => ?_, fun k hk hke => ?_,
    Nat.succ_le_succ hle⟩
  · rw [hi]
    by_cases hkia : k = ia
    · rw [hkia, swap_left, heq]
    · rw [swap_other A hkia (by omega)]
      exact h.front k hk (by omega)
  · rw [hi]
    by_cases hkib : k = ib
    · rw [hkib, swap_right]
      exact h.less ia (Nat.le_refl _) (by omega)
    · rw [swap_other A (by omega) hkib]
      exact h.less k (by omega) (by omega)
  · rw [hi, swap_other A (by omega) (by omega)]
    exact h.greater k hk hkd
  · rw [hi, swap_other A (by omega) (by omega)]
    exact h.back k hk hke

theorem Divided.up_less (h : Divided c A i e ia ib ic id) (hle : ib ≤ ic)
    (hlt : c (A ib) (A i) < 0) : Divided c A i e ia (ib + 1) ic id := by
  refine ⟨h.front, fun k hk hkb => ?_, h.greater, h.back, Nat.succ_le_succ hle⟩
  by_cases hkib : k = ib
  · exact hkib ▸ hlt
  · exact h.less k hk (by omega)

theorem Divided.down_equal (h : Divided c A i e ia ib ic id) (hspan : Span i e ia ib ic id)
    (hle : ib ≤ ic) (heq : c (A ic) (A i) = 0) :
    Divided c (A ∘ Equiv.swap ic id) i e ia ib (ic - 1) (id - 1) := by
  have hia := hspan.front
  have hab := hspan.first
  have hcd := hspan.second
  have hi : (A ∘ Equiv.swap ic id) i = A i := swap_other A (by omega) (by omega)
  refine ⟨fun k hk hka => ?_, fun k hk hkb => ?_, fun k hk hkd => ?_, fun k hk hke => ?_, by omega⟩
  · rw [hi, swap_other A (by omega) (by omega)]
    exact h.front k hk hka
  · rw [hi, swap_other A (by omega) (by omega)]
    exact h.less k hk hkb
  · rw [hi]
    by_cases hkic : k = ic
    · rw [hkic, swap_left]
      exact h.greater id (by omega) (Nat.le_refl _)
    · rw [swap_other A hkic (by omega)]
      exact h.greater k (by omega) (by omega)
  · rw [hi]
    by_cases hkid : k = id
    · rw [hkid, swap_right, heq]
    · rw [swap_other A (by omega) hkid]
      exact h.back k (by omega) hke

theorem Divided.down_greater (h : Divided c A i e ia ib ic id) (hle : ib ≤ ic)
    (hlt : 0 < c (A ic) (A i)) : Divided c A i e ia ib (ic - 1) id := by
  refine ⟨h.front, h.less, fun k hk hkd => ?_, h.back, by omega⟩
  by_cases hkic : k = ic
  · exact hkic ▸ hlt
  · exact h.greater k (by omega) hkd

theorem Divided.exchange (h : Divided c A i e ia ib ic id) (hspan : Span i e ia ib ic id)
    (hle : ib ≤ ic) (hb : 0 < c (A ib) (A i)) (hc : c (A ic) (A i) < 0) :
    Divided c (A ∘ Equiv.swap ib ic) i e ia (ib + 1) (ic - 1) id := by
  have hia := hspan.front
  have hab := hspan.first
  have hcd := hspan.second
  have hne : ib ≠ ic := by
    rintro rfl
    exact absurd hb (not_lt.2 hc.le)
  have hi : (A ∘ Equiv.swap ib ic) i = A i := swap_other A (by omega) (by omega)
  refine ⟨fun k hk hka => ?_, fun k hk hkb => ?_, fun k hk hkd => ?_, fun k hk hke => ?_, by omega⟩
  · rw [hi, swap_other A (by omega) (by omega)]
    exact h.front k hk hka
  · rw [hi]
    by_cases hkib : k = ib
    · rw [hkib, swap_left]
      exact hc
    · rw [swap_other A hkib (by omega)]
      exact h.less k hk (by omega)
  · rw [hi]
    by_cases hkic : k = ic
    · rw [hkic, swap_right]
      exact hb
    · rw [swap_other A (by omega) hkic]
      exact h.greater k (by omega) hkd
  · rw [hi, swap_other A (by omega) (by omega)]
    exact h.back k hk hke

variable (cmp c lo)

theorem scanUp_spec (ht : Swaptype es t) (hes : 0 < es) (he : e ≤ N) (cnt : Bool) (s : Proc)
    (hspan : Span i e ia ib ic id) (hfuel : ic + 2 < ib + fuel) :
    ∃ ia' ib' cnt' s', scanUp cmp es lo (cell es lo N) (cell es lo i) t fuel
        (partAt es lo ia ib ic id cnt s) = some (partAt es lo ia' ib' ic id cnt' s') ∧
      Span i e ia' ib' ic id ∧ ib ≤ ib' ∧ Moved es lo i e s.mem s'.mem ∧
      (Answers cmp c → Divided c (val es lo s.mem) i e ia ib ic id →
        Divided c (val es lo s'.mem) i e ia' ib' ic id ∧
          (ib' ≤ ic → 0 < c (val es lo s'.mem ib') (val es lo s'.mem i))) := by
  induction fuel generalizing ia ib cnt s with
  | zero => exact absurd hspan.meet (by omega)
  | succ fuel ih =>
    rw [scanUp]
    by_cases hle : ib ≤ ic
    · have hle' : (partAt es lo ia ib ic id cnt s).pb ≤ (partAt es lo ia ib ic id cnt s).pc :=
        cell_le hle
      have hib := hspan.lt_upper hle
      have hia := hspan.first_lt hle
      rw [if_pos hle']
      change ∃ ia' ib' cnt' s', ((compare cmp es lo (cell es lo N) (cell es lo ib) (cell es lo i)
        s).bind
        _) = _ ∧ _
      rw [compare_elements cmp s (hib.trans_le he) ((hspan.pivot_lt hle).trans_le he),
        Option.bind_some]
      dsimp only
      by_cases hr : cmp s.calls (val es lo s.mem ib) (val es lo s.mem i) ≤ 0
      · rw [if_pos hr]
        by_cases hzero : cmp s.calls (val es lo s.mem ib) (val es lo s.mem i) = 0
        · rw [if_pos hzero]
          obtain ⟨s₁, hswap, hval, hmoved⟩ := swap_elements lo
            ⟨s.mem, s.calls + 1⟩ ht hes (N := N) (k := ia) (l := ib)
            (hia.trans_le he) (hib.trans_le he)
          obtain ⟨ia', ib', cnt', s', hscan, hspan'', hup, hmoved', hdiv⟩ :=
            ih true s₁ (hspan.up_equal hle) (by omega)
          refine ⟨ia', ib', cnt', s', ?_, hspan'', Nat.le_of_succ_le hup,
            (hmoved i e hspan.front.le hia (hspan.front.le.trans hspan.first) hib).trans hmoved',
              ?_⟩
          · change (swap es lo (cell es lo N) (cell es lo ia) (cell es lo ib) t _).bind _ = _
            have hpart : partAt es lo (ia + 1) (ib + 1) ic id true s₁ =
                ⟨cell es lo ia + es, cell es lo ib + es, cell es lo ic, cell es lo id, true, s₁⟩ :=
                  by
              rw [partAt, cell_succ, cell_succ]
            rw [hpart] at hscan
            rw [hswap, Option.bind_some]
            exact hscan
          · intro hc h
            refine hdiv hc ?_
            rw [hval]
            exact h.up_equal hspan hle (hc.eq _ _ _ ▸ hzero)
        · rw [if_neg hzero]
          obtain ⟨ia', ib', cnt', s', hscan, hspan'', hup, hmoved', hdiv⟩ :=
            ih cnt ⟨s.mem, s.calls + 1⟩ (hspan.up hle) (by omega)
          refine ⟨ia', ib', cnt', s', ?_, hspan'', Nat.le_of_succ_le hup, hmoved', ?_⟩
          · have hpart : partAt es lo ia (ib + 1) ic id cnt ⟨s.mem, s.calls + 1⟩ =
                ⟨cell es lo ia, cell es lo ib + es, cell es lo ic, cell es lo id, cnt,
                  ⟨s.mem, s.calls + 1⟩⟩ := by
              rw [partAt, cell_succ]
            rw [hpart] at hscan
            exact hscan
          · intro hc h
            rw [hc.eq] at hr hzero
            exact hdiv hc (h.up_less hle (lt_of_le_of_ne hr hzero))
      · rw [if_neg hr]
        exact ⟨ia, ib, cnt, ⟨s.mem, s.calls + 1⟩, rfl, hspan, Nat.le_refl _, Moved.refl,
          fun hc h => ⟨h, fun _ => hc.eq _ _ _ ▸ not_le.1 hr⟩⟩
    · have hle' : ¬(partAt es lo ia ib ic id cnt s).pb ≤ (partAt es lo ia ib ic id cnt s).pc :=
        fun h => hle ((cell_le_iff hes).1 h)
      rw [if_neg hle']
      exact ⟨ia, ib, cnt, s, rfl, hspan, Nat.le_refl _, Moved.refl,
        fun _ h => ⟨h, fun h => absurd h hle⟩⟩

theorem scanDown_spec (ht : Swaptype es t) (hes : 0 < es) (he : e ≤ N) (cnt : Bool) (s : Proc)
    (hspan : Span i e ia ib ic id) (hfuel : ic + 2 < ib + fuel) :
    ∃ ic' id' cnt' s', scanDown cmp es lo (cell es lo N) (cell es lo i) t fuel
        (partAt es lo ia ib ic id cnt s) = some (partAt es lo ia ib ic' id' cnt' s') ∧
      Span i e ia ib ic' id' ∧ Moved es lo i e s.mem s'.mem ∧
      (Answers cmp c → Divided c (val es lo s.mem) i e ia ib ic id →
        (ib ≤ ic → 0 < c (val es lo s.mem ib) (val es lo s.mem i)) →
        Divided c (val es lo s'.mem) i e ia ib ic' id' ∧
          (ib ≤ ic' → 0 < c (val es lo s'.mem ib) (val es lo s'.mem i) ∧
            c (val es lo s'.mem ic') (val es lo s'.mem i) < 0)) := by
  induction fuel generalizing ic id cnt s with
  | zero => exact absurd hspan.meet (by omega)
  | succ fuel ih =>
    rw [scanDown]
    by_cases hle : ib ≤ ic
    · have hle' : (partAt es lo ia ib ic id cnt s).pb ≤ (partAt es lo ia ib ic id cnt s).pc :=
        cell_le hle
      have hpred : ∀ x, 0 < x → cell es lo x - es = cell es lo (x - 1) := by
        intro x hx
        obtain ⟨x, rfl⟩ := Nat.exists_eq_add_of_le' hx
        rw [cell_succ, Nat.add_sub_cancel, Nat.add_sub_cancel]
      have hic := hspan.lower_lt
      have hpos := (Nat.zero_le i).trans_lt (hspan.lt_lower hle)
      have hposd := hpos.trans_le hspan.second
      rw [if_pos hle']
      change ∃ ic' id' cnt' s', ((compare cmp es lo (cell es lo N) (cell es lo ic) (cell es lo i)
        s).bind
        _) = _ ∧ _
      rw [compare_elements cmp s (hic.trans_le he) ((hspan.pivot_lt hle).trans_le he),
        Option.bind_some]
      dsimp only
      by_cases hr : 0 ≤ cmp s.calls (val es lo s.mem ic) (val es lo s.mem i)
      · rw [if_pos hr]
        by_cases hzero : cmp s.calls (val es lo s.mem ic) (val es lo s.mem i) = 0
        · rw [if_pos hzero]
          obtain ⟨s₁, hswap, hval, hmoved⟩ := swap_elements lo
            ⟨s.mem, s.calls + 1⟩ ht hes (N := N) (k := ic) (l := id)
            (hic.trans_le he) (hspan.back.trans_le he)
          obtain ⟨ic', id', cnt', s', hscan, hspan'', hmoved', hdiv⟩ :=
            ih true s₁ (hspan.down_equal hle) (by omega)
          refine ⟨ic', id', cnt', s', ?_, hspan'',
            (hmoved i e hspan.lower hic (hspan.lower.trans hspan.second) hspan.back).trans hmoved',
              ?_⟩
          · change (swap es lo (cell es lo N) (cell es lo ic) (cell es lo id) t _).bind _ = _
            have hpart : partAt es lo ia ib (ic - 1) (id - 1) true s₁ =
                ⟨cell es lo ia, cell es lo ib, cell es lo ic - es, cell es lo id - es, true, s₁⟩ :=
                  by
              rw [partAt, hpred ic hpos, hpred id hposd]
            rw [hpart] at hscan
            rw [hswap, Option.bind_some]
            exact hscan
          · intro hc h hup
            refine hdiv hc ?_ fun hle₁ => ?_
            · rw [hval]
              exact h.down_equal hspan hle (hc.eq _ _ _ ▸ hzero)
            · -- the pivot and the element at `pb` stay where they are
              have hbc : ib ≠ ic := (Nat.lt_of_le_pred hpos hle₁).ne
              have hbd : ib ≠ id := ((Nat.lt_of_le_pred hpos hle₁).trans_le hspan.second).ne
              have hpc : i ≠ ic := (hspan.lt_lower hle).ne
              have hpd : i ≠ id := ((hspan.lt_lower hle).trans_le hspan.second).ne
              rw [hval, swap_other _ hbc hbd, swap_other _ hpc hpd]
              exact hup hle
        · rw [if_neg hzero]
          obtain ⟨ic', id', cnt', s', hscan, hspan'', hmoved', hdiv⟩ :=
            ih cnt ⟨s.mem, s.calls + 1⟩ (hspan.down hle) (by omega)
          refine ⟨ic', id', cnt', s', ?_, hspan'', hmoved', ?_⟩
          · have hpart : partAt es lo ia ib (ic - 1) id cnt ⟨s.mem, s.calls + 1⟩ =
                ⟨cell es lo ia, cell es lo ib, cell es lo ic - es, cell es lo id, cnt,
                  ⟨s.mem, s.calls + 1⟩⟩ := by
              rw [partAt, hpred ic hpos]
            rw [hpart] at hscan
            exact hscan
          · intro hc h hup
            rw [hc.eq] at hr hzero
            exact hdiv hc (h.down_greater hle (lt_of_le_of_ne hr (Ne.symm hzero))) fun _ => hup hle
      · rw [if_neg hr]
        exact ⟨ic, id, cnt, ⟨s.mem, s.calls + 1⟩, rfl, hspan, Moved.refl,
          fun hc h hup => ⟨h, fun hle => ⟨hup hle, hc.eq _ _ _ ▸ not_le.1 hr⟩⟩⟩
    · have hle' : ¬(partAt es lo ia ib ic id cnt s).pb ≤ (partAt es lo ia ib ic id cnt s).pc :=
        fun h => hle ((cell_le_iff hes).1 h)
      rw [if_neg hle']
      exact ⟨ic, id, cnt, s, rfl, hspan, Moved.refl, fun _ h _ => ⟨h, fun h => absurd h hle⟩⟩

theorem partition_spec (ht : Swaptype es t) (hes : 0 < es) (he : i + n ≤ N) (cnt : Bool) (s : Proc)
    (hspan : Span i (i + n) ia ib ic id) (hfuel : i + n < ib + fuel) :
    ∃ ia' ib' ic' id' cnt' s', partition cmp es lo (cell es lo N) (cell es lo i) n t fuel
        (partAt es lo ia ib ic id cnt s) = some (partAt es lo ia' ib' ic' id' cnt' s') ∧
      Span i (i + n) ia' ib' ic' id' ∧ ic' < ib' ∧ Moved es lo i (i + n) s.mem s'.mem ∧
      (Answers cmp c → Divided c (val es lo s.mem) i (i + n) ia ib ic id →
        Divided c (val es lo s'.mem) i (i + n) ia' ib' ic' id') := by
  induction fuel generalizing ia ib ic id cnt s with
  | zero => exact absurd hspan.upper (by omega)
  | succ fuel ih =>
    rw [partition]
    have hfuel₁ : ic + 2 < ib + (n + 1) := by
      have h₁ := hspan.second.trans_lt hspan.back
      have h₂ := hspan.front.trans_le hspan.first
      omega
    obtain ⟨ia₁, ib₁, cnt₁, s₁, hup, hspan₁, hle₁, hmoved₁, hdiv₁⟩ :=
      scanUp_spec cmp c lo ht hes he cnt s hspan hfuel₁
    have hfuel₂ : ic + 2 < ib₁ + (n + 1) := hfuel₁.trans_le (Nat.add_le_add_right hle₁ _)
    obtain ⟨ic₁, id₁, cnt₂, s₂, hdown, hspan₂, hmoved₂, hdiv₂⟩ :=
      scanDown_spec cmp c lo ht hes he cnt₁ s₁ hspan₁ hfuel₂
    rw [hup, Option.bind_eq_bind, Option.bind_some, hdown, Option.bind_some]
    have hmoved := hmoved₁.trans hmoved₂
    by_cases hlt : ic₁ < ib₁
    · have hlt' : (partAt es lo ia₁ ib₁ ic₁ id₁ cnt₂ s₂).pc <
      (partAt es lo ia₁ ib₁ ic₁ id₁ cnt₂ s₂).pb :=
        (cell_lt_iff hes).2 hlt
      rw [if_pos hlt']
      refine ⟨ia₁, ib₁, ic₁, id₁, cnt₂, s₂, rfl, hspan₂, hlt, hmoved, fun hc h => ?_⟩
      obtain ⟨h₁, hpos⟩ := hdiv₁ hc h
      exact (hdiv₂ hc h₁ hpos).1
    · have hlt' : ¬(partAt es lo ia₁ ib₁ ic₁ id₁ cnt₂ s₂).pc <
      (partAt es lo ia₁ ib₁ ic₁ id₁ cnt₂ s₂).pb :=
        fun h => hlt ((cell_lt_iff hes).1 h)
      have hle := not_lt.1 hlt
      have hib := hspan₂.lt_upper hle
      have hic := hspan₂.lower_lt
      rw [if_neg hlt']
      obtain ⟨s₃, hswap, hval, hmoved₃⟩ := swap_elements lo s₂ ht hes (N := N) (k := ib₁)
        (l := ic₁) (hib.trans_le he) (hic.trans_le he)
      obtain ⟨ia', ib', ic', id', cnt', s', hpart, hspan', hlt'', hmoved', hdiv'⟩ :=
        ih true s₃ (hspan₂.exchange hle) (by omega)
      refine ⟨ia', ib', ic', id', cnt', s', ?_, hspan', hlt'',
        (hmoved.trans (hmoved₃ i (i + n) (hspan₂.front.le.trans hspan₂.first) hib hspan₂.lower
          hic)).trans
          hmoved',
        fun hc h => ?_⟩
      · change (swap es lo (cell es lo N) (cell es lo ib₁) (cell es lo ic₁) t s₂).bind _ = _
        have hstate : partAt es lo ia₁ (ib₁ + 1) (ic₁ - 1) id₁ true s₃ =
            ⟨cell es lo ia₁, cell es lo ib₁ + es, cell es lo ic₁ - es, cell es lo id₁, true, s₃⟩ :=
              by
          obtain ⟨x, rfl⟩ := Nat.exists_eq_add_of_le' (Nat.one_le_of_lt (hspan₂.lt_lower hle))
          rw [partAt, cell_succ, cell_succ, Nat.add_sub_cancel, Nat.add_sub_cancel]
        rw [hstate] at hpart
        rw [hswap, Option.bind_some]
        exact hpart
      · obtain ⟨h₁, hpos₁⟩ := hdiv₁ hc h
        obtain ⟨h₂, hpos₂⟩ := hdiv₂ hc h₁ hpos₁
        refine hdiv' hc ?_
        rw [hval]
        exact h₂.exchange hspan₂ hle (hpos₂ hle).1 (hpos₂ hle).2

end

end Bsdi.Stdlib
