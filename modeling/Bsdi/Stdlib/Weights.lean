import Bsdi.Stdlib.Radixsort
import Mathlib.Order.Lattice.Nat

/-!
# The order of the strings

Strings are ordered by the weights of their bytes, with the weight of the terminator at the end of
each. `simplesort` sorts by this order what agrees in the first bytes.
-/

namespace Bsdi.Stdlib

open Bsdi.Lib Function

variable {w : ℕ → ℕ → ℕ} {e b i j k n p q M : ℕ} {A : ℕ → ℕ} {l l' : List ℕ}

/-- The terminator of the string is at this place. -/
noncomputable def ending (w : ℕ → ℕ → ℕ) (e p : ℕ) : ℕ := sInf {k | w p k = e}

noncomputable def key (w : ℕ → ℕ → ℕ) (e p : ℕ) : List ℕ :=
  (List.range (ending w e p + 1)).map (w p)

noncomputable def byWeights (w : ℕ → ℕ → ℕ) (e p q : ℕ) : ℤ :=
  if key w e p < key w e q then -1 else if key w e q < key w e p then 1 else 0

theorem byWeights_nonpos : byWeights w e p q ≤ 0 ↔ key w e p ≤ key w e q := by
  unfold byWeights
  split_ifs with h₁ h₂
  · exact ⟨fun _ => h₁.le, fun _ => by decide⟩
  · exact ⟨fun h => absurd h (by decide), fun h => absurd h₂ (not_lt.2 h)⟩
  · exact ⟨fun _ => not_lt.1 h₂, fun _ => le_refl _⟩

theorem byWeights_nonneg : 0 ≤ byWeights w e p q ↔ key w e q ≤ key w e p := by
  unfold byWeights
  split_ifs with h₁ h₂
  · exact ⟨fun h => absurd h (by decide), fun h => absurd h₁ (not_lt.2 h)⟩
  · exact ⟨fun _ => h₂.le, fun _ => by decide⟩
  · exact ⟨fun _ => not_lt.1 h₁, fun _ => le_refl _⟩

theorem byWeights_pos : 0 < byWeights w e p q ↔ key w e q < key w e p := by
  rw [← not_le, byWeights_nonpos, not_le]

theorem comparison_byWeights : Comparison (byWeights w e) where
  sign _ _ := byWeights_nonpos.trans byWeights_nonneg.symm
  trans _ _ _ hpq hqr :=
    byWeights_nonpos.2 ((byWeights_nonpos.1 hpq).trans (byWeights_nonpos.1 hqr))

/-- Up to place `k`, two strings agree and do not end. -/
def Agree (w : ℕ → ℕ → ℕ) (e k p q : ℕ) : Prop := ∀ j < k, w p j = w q j ∧ w p j ≠ e

theorem Agree.symm (h : Agree w e k p q) : Agree w e k q p := fun j hj =>
  ⟨(h j hj).1.symm, (h j hj).1 ▸ (h j hj).2⟩

theorem Agree.succ (h : Agree w e k p q) (heq : w p k = w q k) (hne : w p k ≠ e) :
    Agree w e (k + 1) p q := fun j hj => by
  rcases Nat.lt_succ_iff_lt_or_eq.1 hj with hlt | rfl
  · exact h j hlt
  · exact ⟨heq, hne⟩

theorem weight_ending (h : ∃ k, w p k = e) : w p (ending w e p) = e := Nat.sInf_mem h

theorem le_ending (h : ∃ k, w p k = e) (hne : ∀ j < k, w p j ≠ e) : k ≤ ending w e p := by
  by_contra hlt
  exact hne _ (not_le.1 hlt) (weight_ending h)

theorem ending_eq (hne : ∀ j < k, w p j ≠ e) (h : w p k = e) : ending w e p = k :=
  le_antisymm (Nat.sInf_le h) (le_ending ⟨k, h⟩ hne)

theorem key_split (h : ∃ k, w p k = e) (hne : ∀ j < k, w p j ≠ e) :
    ∃ l, key w e p = (List.range k).map (w p) ++ w p k :: l := by
  obtain ⟨d, hd⟩ := Nat.exists_eq_add_of_le (le_ending h hne)
  refine ⟨(List.range d).map fun j => w p (k + (j + 1)), ?_⟩
  rw [key, hd, Nat.add_assoc, List.range_add, List.map_append, List.range_succ_eq_map,
    List.map_cons, List.map_cons, List.map_map, List.map_map]
  rfl

theorem key_lt (hp : ∃ k, w p k = e) (hq : ∃ k, w q k = e) (h : Agree w e k p q)
    (hlt : w p k < w q k) : key w e p < key w e q := by
  obtain ⟨l, hl⟩ := key_split hp fun j hj => (h j hj).2
  obtain ⟨m, hm⟩ := key_split hq fun j hj => (h.symm j hj).2
  have hmap : (List.range k).map (w p) = (List.range k).map (w q) :=
    List.map_congr_left fun j hj => (h j (List.mem_range.1 hj)).1
  rw [hl, hm, hmap]
  exact List.append_left_lt (List.cons_lt_cons_iff.2 (Or.inl hlt))

theorem key_eq (h : Agree w e k p q) (hp : w p k = e) (hq : w q k = e) : key w e p = key w e q := by
  rw [key, key, ending_eq (fun j hj => (h j hj).2) hp,
    ending_eq (fun j hj => (h.symm j hj).2) hq]
  refine List.map_congr_left fun j hj => ?_
  rcases Nat.lt_succ_iff_lt_or_eq.1 (List.mem_range.1 hj) with hlt | rfl
  · exact (h j hlt).1
  · rw [hp, hq]

/-- Strings that agree in the first `b` weights and end behind these, up to place `M`. -/
structure Level (w : ℕ → ℕ → ℕ) (e b M : ℕ) (l : List ℕ) : Prop where
  ends : ∀ p ∈ l, ∃ k, w p k = e
  short : ∀ p ∈ l, ending w e p ≤ M
  agree : ∀ p ∈ l, ∀ q ∈ l, Agree w e b p q

theorem Level.subset (h : Level w e b M l) (hsub : l' ⊆ l) : Level w e b M l' :=
  ⟨fun p hp => h.ends p (hsub hp), fun p hp => h.short p (hsub hp),
    fun p hp q hq => h.agree p (hsub hp) q (hsub hq)⟩

theorem Level.le (h : Level w e b M l) (hp : p ∈ l) : b ≤ M :=
  (le_ending (h.ends p hp) fun j hj => (h.agree p hp p hp j hj).2).trans (h.short p hp)

section

variable {text : ℕ → UChar} {tr : UChar → UChar} {a m : ℕ}

theorem compareFrom_stop (hp : ∃ k, weight text tr p k = e) (hq : ∃ k, weight text tr q k = e)
    (hb : Agree (weight text tr) e b p q)
    (hstop : ¬(weight text tr p b ≠ e ∧ weight text tr p b = weight text tr q b)) :
    (∀ fuel, compareFrom text tr e (fuel + 1) (p + b) (q + b) =
        some (weight text tr p b, weight text tr q b)) ∧
      (weight text tr q b ≤ weight text tr p b ↔
        key (weight text tr) e q ≤ key (weight text tr) e p) := by
  refine ⟨fun fuel => if_neg hstop, ?_⟩
  rcases Nat.lt_trichotomy (weight text tr p b) (weight text tr q b) with hlt | heq | hgt
  · have hkey := key_lt hp hq hb hlt
    exact ⟨fun h => absurd h (not_le.2 hlt), fun h => absurd h (not_le.2 hkey)⟩
  · have hend : weight text tr p b = e := by
      by_contra hne
      exact hstop ⟨hne, heq⟩
    exact ⟨fun _ => (key_eq hb hend (heq ▸ hend)).ge, fun _ => heq.ge⟩
  · exact ⟨fun _ => (key_lt hq hp hb.symm hgt).le, fun _ => hgt.le⟩

theorem compareFrom_spec (hp : ∃ k, weight text tr p k = e) (hq : ∃ k, weight text tr q k = e)
    (hb : Agree (weight text tr) e b p q) (hM : ending (weight text tr) e p ≤ M) :
    ∃ ch ct, (∀ fuel, M < b + fuel →
        compareFrom text tr e fuel (p + b) (q + b) = some (ch, ct)) ∧
      (ct ≤ ch ↔ key (weight text tr) e q ≤ key (weight text tr) e p) := by
  induction hd : M - b generalizing b with
  | zero =>
    have hstop := compareFrom_stop hp hq hb fun h => by
      have hle := le_ending hp fun j hj => ((hb.succ h.2 h.1) j hj).2
      omega
    refine ⟨_, _, fun fuel hfuel => ?_, hstop.2⟩
    have hle := le_ending hp fun j hj => (hb j hj).2
    obtain ⟨fuel, rfl⟩ := Nat.exists_eq_add_of_le' (show 1 ≤ fuel by omega)
    exact hstop.1 fuel
  | succ d ih =>
    by_cases hon : weight text tr p b ≠ e ∧ weight text tr p b = weight text tr q b
    · obtain ⟨ch, ct, hcompare, hiff⟩ := ih (hb.succ hon.2 hon.1) (by omega)
      refine ⟨ch, ct, fun fuel hfuel => ?_, hiff⟩
      obtain ⟨fuel, rfl⟩ := Nat.exists_eq_add_of_le' (show 1 ≤ fuel by omega)
      rw [← hcompare fuel (by omega), ← Nat.add_assoc, ← Nat.add_assoc]
      exact if_pos hon
    · have hstop := compareFrom_stop hp hq hb hon
      refine ⟨_, _, fun fuel hfuel => ?_, hstop.2⟩
      obtain ⟨fuel, rfl⟩ := Nat.exists_eq_add_of_le' (show 1 ≤ fuel by omega)
      exact hstop.1 fuel

theorem insertDown_spec (hkj : a + k < j)
    (hlevel : Level (weight text tr) e b M (vals A a j)) :
    ∃ A', (∀ fuel, M < fuel → insertDown text tr e fuel a b k A = some A') ∧
      Stably (byWeights (weight text tr) e) (vals A' a j) (vals A a j) ∧
      (∀ x, x < a ∨ j ≤ x → A' x = A x) ∧
      (Inserting (byWeights (weight text tr) e) A a (a + k) j →
        SortedOn (byWeights (weight text tr) e) A' a j) := by
  induction k generalizing A with
  | zero => exact ⟨A, fun _ _ => rfl, Stably.refl _, fun _ _ => rfl, fun h => h.first⟩
  | succ k ih =>
    have hmem : ∀ x, a ≤ x → x < j → A x ∈ vals A a j := fun x => mem_vals_self
    have h₀ := hmem (a + k) (by omega) (by omega)
    have h₁ := hmem (a + k + 1) (by omega) (by omega)
    obtain ⟨ch, ct, hcompare, hle⟩ := compareFrom_spec (hlevel.ends _ h₁)
      (hlevel.ends _ h₀) (hlevel.agree _ h₁ _ h₀) (hlevel.short _ h₁)
    have hrun : ∀ fuel, M < fuel → insertDown text tr e fuel a b (k + 1) A =
        if ct ≤ ch then some A
        else insertDown text tr e fuel a b k (A ∘ Equiv.swap (a + k + 1) (a + k)) := by
      intro fuel hfuel
      rw [insertDown]
      dsimp only
      rw [Nat.add_sub_cancel, hcompare fuel (by omega), Option.bind_eq_bind, Option.bind_some,
        ← Equiv.comp_swap_eq_update, Equiv.swap_comm]
    by_cases hstop : ct ≤ ch
    · refine ⟨A, fun fuel hfuel => ?_, Stably.refl _, fun _ _ => rfl, fun h =>
        h.stop comparison_byWeights (byWeights_nonpos.2 (hle.1 hstop))⟩
      rw [hrun fuel hfuel, if_pos hstop]
    · have hlt : 0 < byWeights (weight text tr) e (A (a + k)) (A (a + k + 1)) :=
        byWeights_pos.2 (not_le.1 fun h => hstop (hle.2 h))
      have hswap := stably_swap comparison_byWeights (Nat.le_add_right a k) hkj hlt.ne'
      obtain ⟨A', hdown, hstable, hout, hsorted⟩ :=
        ih (by omega) (hlevel.subset hswap.perm.subset)
      refine ⟨A', fun fuel hfuel => ?_, hstable.trans hswap, fun x hx => ?_, fun h =>
        hsorted (h.swap comparison_byWeights (Nat.le_add_right a k) hkj hlt)⟩
      · rw [hrun fuel hfuel, if_neg hstop]
        exact hdown fuel hfuel
      · rw [hout x hx, swap_other A (by omega) (by omega)]

theorem insertAll_spec
    (hlevel : Level (weight text tr) e b M (vals A a (a + k + m)))
    (hsort : SortedOn (byWeights (weight text tr) e) A a (a + k)) :
    ∃ A', (∀ fuel, M < fuel → insertAll text tr e fuel a b m k A = some A') ∧
      Stably (byWeights (weight text tr) e) (vals A' a (a + k + m)) (vals A a (a + k + m)) ∧
      (∀ x, x < a ∨ a + k + m ≤ x → A' x = A x) ∧
      SortedOn (byWeights (weight text tr) e) A' a (a + k + m) := by
  induction m generalizing A k with
  | zero => exact ⟨A, fun _ _ => rfl, Stably.refl _, fun _ _ => rfl, hsort⟩
  | succ m ih =>
    have hsplit : ∀ B : ℕ → ℕ, vals B a (a + k + (m + 1)) =
        vals B a (a + k + 1) ++ vals B (a + k + 1) (a + k + (m + 1)) := fun B =>
      vals_append (by omega) (by omega)
    obtain ⟨A₁, hdown, hstable, hout, hsorted⟩ := insertDown_spec (Nat.lt_succ_self (a + k))
      (hlevel.subset (by rw [hsplit]; exact List.subset_append_left _ _))
    have hstable₁ : Stably (byWeights (weight text tr) e) (vals A₁ a (a + k + (m + 1)))
        (vals A a (a + k + (m + 1))) := by
      have hsame : vals A₁ (a + k + 1) (a + k + (m + 1)) = vals A (a + k + 1) (a + k + (m + 1)) :=
        vals_congr fun x hx _ => hout x (Or.inr hx)
      rw [hsplit, hsplit A, hsame]
      exact hstable.append (Stably.refl _)
    have hend : a + (k + 1) + m = a + k + (m + 1) := by omega
    have hlevel₁ := hlevel.subset hstable₁.perm.subset
    rw [← hend] at hlevel₁
    obtain ⟨A', hall, hstable', hout', hsorted'⟩ := ih hlevel₁ (hsorted hsort.inserting)
    rw [hend] at hstable' hout' hsorted'
    refine ⟨A', fun fuel hfuel => ?_, hstable'.trans hstable₁, fun x hx => ?_, hsorted'⟩
    · rw [insertAll, hdown fuel hfuel]
      exact hall fuel hfuel
    · rw [hout' x hx, hout x (by omega)]

theorem simplesort_spec
    (hlevel : Level (weight text tr) e b M (vals A a (a + n))) :
    ∃ A', (∀ fuel, M < fuel → simplesort text tr e fuel a n b A = some A') ∧
      Stably (byWeights (weight text tr) e) (vals A' a (a + n)) (vals A a (a + n)) ∧
      (∀ x, x < a ∨ a + n ≤ x → A' x = A x) ∧
      SortedOn (byWeights (weight text tr) e) A' a (a + n) := by
  by_cases hn : n = 0
  · subst hn
    exact ⟨A, fun _ _ => rfl, Stably.refl _, fun _ _ => rfl, sortedOn_one (by omega)⟩
  · have hend : a + 1 + (n - 1) = a + n := by omega
    rw [← hend] at hlevel
    obtain ⟨A', hall, h⟩ := insertAll_spec hlevel (sortedOn_one (Nat.le_refl _))
    rw [hend] at h
    exact ⟨A', hall, h⟩

end

end Bsdi.Stdlib
