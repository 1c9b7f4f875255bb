import Bsdi.Mergesort.Arrays

/-!
# Searching a run

However `mergesort` searches, it stops behind the elements of a run that go before `q`.
-/

namespace Bsdi.Mergesort

variable {cmp : Elem → Elem → ℤ} {size a e i j k r u : ℕ} {mem : Mem} {q : ℕ} {sense : ℤ}

/-- Element `r` is the first one, from `k` up to `j`, that does not go before `q`. -/
structure Border (cmp : Elem → Elem → ℤ) (size : ℕ) (mem : Mem) (q : ℕ) (sense : ℤ)
    (a k j r : ℕ) : Prop where
  lt : k < r
  le : r ≤ j
  before : Before cmp size mem q sense (cell size a (r - 1))
  stop : r < j → ¬Before cmp size mem q sense (cell size a r)

theorem Border.mono (h : Border cmp size mem q sense a e j r) (hk : k ≤ e) :
    Border cmp size mem q sense a k j r := ⟨hk.trans_lt h.lt, h.le, h.before, h.stop⟩

section

variable (hsize : 0 < size)

include hsize

theorem linear_spec (left : ℕ) (hleft : 0 < left) (hej : e < j)
    (hb : Before cmp size mem q sense (cell size a e)) :
    (∃ e', linear cmp size mem q sense (cell size a j) left (cell size a e) =
        (true, cell size a e') ∧ e ≤ e' ∧ e' < j ∧ Before cmp size mem q sense (cell size a e')) ∨
      ∃ r, linear cmp size mem q sense (cell size a j) left (cell size a e) =
        (false, cell size a r) ∧ Border cmp size mem q sense a e j r := by
  induction left generalizing e with
  | zero => exact absurd hleft (Nat.lt_irrefl 0)
  | succ left ih =>
    rw [linear, ← cell_succ]
    by_cases hnext : cell size a (e + 1) < cell size a j ∧
        Before cmp size mem q sense (cell size a (e + 1))
    · rw [if_pos hnext]
      obtain ⟨hlt, hb'⟩ := hnext
      rw [cell_lt_iff hsize] at hlt
      rcases Nat.eq_zero_or_pos left with hzero | hpos
      · rw [if_pos hzero]
        exact Or.inl ⟨e + 1, rfl, Nat.le_succ e, hlt, hb'⟩
      · rw [if_neg hpos.ne']
        rcases ih hpos hlt hb' with ⟨e', heq, hle, hrest⟩ | ⟨r, heq, hr⟩
        · exact Or.inl ⟨e', heq, (Nat.le_succ e).trans hle, hrest⟩
        · exact Or.inr ⟨r, heq, hr.mono (Nat.le_succ e)⟩
    · rw [if_neg hnext]
      refine Or.inr ⟨e + 1, rfl, Nat.lt_succ_self e, hej, hb, fun hlt hb' => hnext ⟨?_, hb'⟩⟩
      rwa [cell_lt_iff hsize]

/-- Where `EXPONENTIAL` stops: the border is between `b` and `t`. -/
def Label.Bounds (cmp : Elem → Elem → ℤ) (size : ℕ) (mem : Mem) (q : ℕ) (sense : ℤ)
    (a k j : ℕ) : Label → Prop
  | .slow b t => ∃ e u, b = cell size a e ∧ t = cell size a u ∧ k ≤ e ∧ e < u ∧ u ≤ j ∧
      Before cmp size mem q sense (cell size a e) ∧
      (u < j → ¬Before cmp size mem q sense (cell size a u))
  | .fast b t i => ∃ e m, b = cell size a e ∧ t = cell size a (e + 2 ^ m) ∧ i = 2 ^ m * size ∧
      k ≤ e ∧ e + 2 ^ m < j ∧ Before cmp size mem q sense (cell size a e) ∧
      ¬Before cmp size mem q sense (cell size a (e + 2 ^ m))

theorem exponential_spec (fuel : ℕ) {m : ℕ} (hej : e < j) (hfuel : j ≤ e + fuel)
    (hb : Before cmp size mem q sense (cell size a e)) :
    (exponential cmp size mem q sense (cell size a j) fuel (cell size a e) (2 ^ m * size)).Bounds
      cmp size mem q sense a e j := by
  induction fuel generalizing e m with
  | zero => omega
  | succ fuel ih =>
    have hpow : 0 < 2 ^ m := Nat.two_pow_pos m
    have hlast : cell size a j - size = cell size a (j - 1) := by
      obtain ⟨j, rfl⟩ : ∃ j', j = j' + 1 := ⟨j - 1, by omega⟩
      rw [cell_succ, Nat.add_sub_cancel, Nat.add_sub_cancel]
    rw [exponential, ← cell_add, hlast]
    dsimp only
    by_cases hend : cell size a j ≤ cell size a (e + 2 ^ m)
    · rw [if_pos hend]
      by_cases hcut : cell size a e < cell size a (j - 1) ∧
          ¬Before cmp size mem q sense (cell size a (j - 1))
      · rw [if_pos hcut]
        rw [cell_lt_iff hsize] at hcut
        exact ⟨e, j - 1, rfl, rfl, Nat.le_refl e, hcut.1, Nat.sub_le j 1, hb, fun _ => hcut.2⟩
      · rw [if_neg hcut]
        rw [cell_lt_iff hsize] at hcut
        refine ⟨j - 1, j, rfl, rfl, by omega, by omega, Nat.le_refl j, ?_,
          fun hlt => absurd hlt (Nat.lt_irrefl j)⟩
        rcases Nat.lt_or_ge e (j - 1) with hlt | hge
        · exact not_not.1 fun hnot => hcut ⟨hlt, hnot⟩
        · obtain rfl : e = j - 1 := by omega
          exact hb
    · rw [if_neg hend]
      rw [cell_le_iff hsize] at hend
      by_cases hp : Before cmp size mem q sense (cell size a (e + 2 ^ m))
      · rw [if_neg (not_not.2 hp), ← Nat.mul_assoc, ← Nat.pow_succ']
        have := ih (e := e + 2 ^ m) (m := m + 1) (by omega) (by omega) hp
        generalize exponential cmp size mem q sense (cell size a j) fuel (cell size a (e + 2 ^ m))
          (2 ^ (m + 1) * size) = label at this ⊢
        cases label with
        | slow b t =>
          obtain ⟨e', u, hb', ht, hle, hrest⟩ := this
          exact ⟨e', u, hb', ht, (Nat.le_add_right _ _).trans hle, hrest⟩
        | fast b t i =>
          obtain ⟨e', m', hb', ht, hi, hle, hrest⟩ := this
          exact ⟨e', m', hb', ht, hi, (Nat.le_add_right _ _).trans hle, hrest⟩
      · rw [if_pos hp]
        exact ⟨e, m, rfl, rfl, rfl, Nat.le_refl e, by omega, hb, hp⟩

theorem slowcase_spec (fuel : ℕ) (heu : e < u) (huj : u ≤ j) (hfuel : u ≤ e + 1 + fuel)
    (hb : Before cmp size mem q sense (cell size a e))
    (ht : u < j → ¬Before cmp size mem q sense (cell size a u)) :
    ∃ r, slowcase cmp size mem q sense fuel (cell size a e) (cell size a u) = cell size a r ∧
      Border cmp size mem q sense a e j r := by
  induction fuel generalizing e u with
  | zero =>
    obtain rfl : u = e + 1 := by omega
    exact ⟨e + 1, rfl, Nat.lt_succ_self e, huj, hb, ht⟩
  | succ fuel ih =>
    have hmid : cell size a e + (cell size a u - cell size a e) / size / 2 * size =
        cell size a (e + (u - e) / 2) := by
      have : cell size a u - cell size a e = (u - e) * size := by
        rw [cell, cell, Nat.add_sub_add_left, Nat.sub_mul]
      rw [this, Nat.mul_div_cancel _ hsize, ← cell_add]
    rw [slowcase, ← cell_succ, hmid]
    by_cases hlt : cell size a (e + 1) < cell size a u
    · rw [if_pos hlt]
      rw [cell_lt_iff hsize] at hlt
      dsimp only
      by_cases hp : Before cmp size mem q sense (cell size a (e + (u - e) / 2))
      · rw [if_neg (not_not.2 hp)]
        obtain ⟨r, heq, hr⟩ := ih (e := e + (u - e) / 2) (by omega) huj (by omega) hp ht
        exact ⟨r, heq, hr.mono (Nat.le_add_right e _)⟩
      · rw [if_pos hp]
        exact ih (u := e + (u - e) / 2) (by omega) (by omega) (by omega) hb fun _ => hp
    · rw [if_neg hlt]
      rw [cell_lt_iff hsize] at hlt
      obtain rfl : u = e + 1 := by omega
      exact ⟨e + 1, rfl, Nat.lt_succ_self e, huj, hb, ht⟩

theorem fastcase_spec (fuel : ℕ) {m : ℕ} (huj : e + 2 ^ m < j) (hfuel : m ≤ fuel)
    (hb : Before cmp size mem q sense (cell size a e))
    (ht : ¬Before cmp size mem q sense (cell size a (e + 2 ^ m))) :
    ∃ r, fastcase cmp size mem q sense fuel (cell size a e) (cell size a (e + 2 ^ m))
        (2 ^ m * size) = cell size a r ∧ Border cmp size mem q sense a e j r := by
  induction fuel generalizing e m with
  | zero =>
    obtain rfl : m = 0 := by omega
    exact ⟨e + 1, rfl, Nat.lt_succ_self e, huj.le, hb, fun _ => ht⟩
  | succ fuel ih =>
    rcases m with _ | m
    · rw [fastcase, if_neg (by omega)]
      exact ⟨e + 1, rfl, Nat.lt_succ_self e, huj.le, hb, fun _ => ht⟩
    · have hpow : 0 < 2 ^ m := Nat.two_pow_pos m
      have hdouble : 2 ^ (m + 1) = 2 ^ m + 2 ^ m := by omega
      have hlarge : size < 2 ^ (m + 1) * size := by
        rw [hdouble, Nat.add_mul]
        have := Nat.le_mul_of_pos_left size hpow
        omega
      have hhalf : 2 ^ (m + 1) * size / 2 = 2 ^ m * size := by
        rw [hdouble, Nat.add_mul]
        omega
      rw [fastcase, if_pos hlarge, hhalf]
      dsimp only
      rw [← cell_add]
      by_cases hp : Before cmp size mem q sense (cell size a (e + 2 ^ m))
      · rw [if_neg (not_not.2 hp), hdouble, ← Nat.add_assoc]
        rw [hdouble, ← Nat.add_assoc] at huj ht
        obtain ⟨r, heq, hr⟩ := ih (e := e + 2 ^ m) (m := m) huj (by omega) hp ht
        exact ⟨r, heq, hr.mono (Nat.le_add_right e _)⟩
      · rw [if_pos hp]
        exact ih (m := m) (by omega) (by omega) hb hp

theorem search_spec (big : Bool) (hkj : k < j)
    (hb : Before cmp size mem q sense (cell size a k)) :
    ∃ r, (search cmp size mem q sense big (cell size a k) (cell size a j)).1 = cell size a r ∧
      Border cmp size mem q sense a k j r := by
  have hcell : j ≤ cell size a j := by
    have := Nat.le_mul_of_pos_right j hsize
    rw [cell]
    omega
  have hbig : ∀ e, k ≤ e → e < j → Before cmp size mem q sense (cell size a e) →
      ∃ r, (bigSearch cmp size mem q sense (cell size a e) (cell size a j)).1 = cell size a r ∧
        Border cmp size mem q sense a k j r := fun e hke hej hbe => by
    have hbounds := exponential_spec (m := 0) hsize (cell size a j) hej (by omega) hbe
    rw [Nat.pow_zero, Nat.one_mul] at hbounds
    rw [bigSearch]
    generalize exponential cmp size mem q sense (cell size a j) (cell size a j) (cell size a e) size
      = label at hbounds ⊢
    cases label with
    | slow b t =>
      obtain ⟨e', u, rfl, rfl, hle, heu, huj, hb', ht⟩ := hbounds
      obtain ⟨r, heq, hr⟩ := slowcase_spec hsize (cell size a u) heu huj (by
        have := Nat.le_mul_of_pos_right u hsize
        rw [cell]
        omega) hb' ht
      exact ⟨r, heq, hr.mono (hke.trans hle)⟩
    | fast b t i =>
      obtain ⟨e', m, rfl, rfl, rfl, hle, huj, hb', ht⟩ := hbounds
      obtain ⟨r, heq, hr⟩ := fastcase_spec hsize (cell size a (e' + 2 ^ m)) huj (by
        have := Nat.le_mul_of_pos_right (e' + 2 ^ m) hsize
        have := Nat.lt_two_pow_self (n := m)
        rw [cell]
        omega) hb' ht
      exact ⟨r, heq, hr.mono (hke.trans hle)⟩
  rw [search]
  cases big with
  | true => exact hbig k (Nat.le_refl k) hkj hb
  | false =>
    rw [if_neg Bool.false_ne_true]
    rcases linear_spec hsize 6 (by omega) hkj hb with
      ⟨e, heq, hke, hej, hbe⟩ | ⟨r, heq, hr⟩
    · rw [heq]
      exact hbig e hke hej hbe
    · rw [heq]
      exact ⟨r, rfl, hr⟩

end

end Bsdi.Mergesort
