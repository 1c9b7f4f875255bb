import Bsdi.Mergesort.Arrays

/-!
# Insertion sort and reversals

The parts of the first pass that move elements: `insertionsort`, `swap` of a pair and `reverse`.
-/

namespace Bsdi.Mergesort

open Bsdi.Lib

variable {cmp : Elem → Elem → ℤ} {size a i j k n : ℕ} {mem : Mem}

/-- `mem'` differs from `mem` in elements `i` to `j` of the array at `a` only. -/
def Within (size a i j : ℕ) (mem mem' : Mem) : Prop :=
  ∀ x, (x < cell size a i ∨ cell size a j ≤ x) → mem'.byte x = mem.byte x

theorem Within.refl : Within size a i j mem mem := fun _ _ => rfl

theorem Within.trans {mem₁ mem₂ : Mem} (h : Within size a i j mem mem₁)
    (h' : Within size a i j mem₁ mem₂) : Within size a i j mem mem₂ :=
  fun x hx => (h' x hx).trans (h x hx)

theorem Within.mono {mem' : Mem} {i' j' : ℕ} (h : Within size a i j mem mem') (hi : i' ≤ i)
    (hj : j ≤ j') : Within size a i' j' mem mem' := fun x hx => h x (by
  have : cell size a i' ≤ cell size a i := cell_le hi
  have : cell size a j ≤ cell size a j' := cell_le hj
  omega)

theorem Within.same_before {mem' : Mem} {lo hi : ℕ} (h : Within size a i j mem mem')
    (hhi : hi ≤ cell size a i) : Same mem mem' lo hi := fun x _ hx => h x (by omega)

theorem Within.same_behind {mem' : Mem} {lo hi : ℕ} (h : Within size a i j mem mem')
    (hlo : cell size a j ≤ lo) : Same mem mem' lo hi := fun x hx _ => h x (by omega)

theorem Within.stably {mem' : Mem} {len : ℕ} (h : Within size a i j mem mem') (hij : i ≤ j)
    (hj : j ≤ len) (hs : Stably cmp (elts size mem' a i (j - i)) (elts size mem a i (j - i))) :
    Stably cmp (elts size mem' a 0 len) (elts size mem a 0 len) := by
  have hsplit : ∀ m : Mem, elts size m a 0 len =
      elts size m a 0 i ++ elts size m a i (j - i) ++ elts size m a j (len - j) := fun m => by
    have h₁ : elts size m a 0 (i + (j - i)) = elts size m a 0 i ++ elts size m a (0 + i) (j - i) :=
      elts_append
    have h₂ : elts size m a 0 (j + (len - j)) =
        elts size m a 0 j ++ elts size m a (0 + j) (len - j) := elts_append
    rw [Nat.add_sub_cancel' hij, Nat.zero_add] at h₁
    rw [Nat.add_sub_cancel' hj, Nat.zero_add] at h₂
    rw [h₂, h₁]
  have hfirst : elts size mem' a 0 i = elts size mem a 0 i :=
    elts_congr (h.same_before (by rw [Nat.zero_add]))
  have hlast : elts size mem' a j (len - j) = elts size mem a j (len - j) :=
    elts_congr (h.same_behind (Nat.le_refl _))
  rw [hsplit mem', hsplit mem, hfirst, hlast]
  exact ((Stably.refl _).append hs).append (Stably.refl _)

theorem swap_pair (mem : Mem) (hsize : 0 < size) :
    elts size (swapBytes size (cell size a k) (cell size a (k + 1)) mem) a k 2 =
        [elt size mem (cell size a (k + 1)), elt size mem (cell size a k)] ∧
      Within size a k (k + 2) mem (swapBytes size (cell size a k) (cell size a (k + 1)) mem) := by
  obtain ⟨hfirst, hsecond, hrest⟩ :=
    swap_spec mem (Nat.lt_succ_self k)
  refine ⟨?_, fun x hx => hrest x ?_ ?_⟩
  · rw [elts_cons, elts_cons, hfirst, hsecond]
    rfl
  · rcases hx with hx | hx
    · exact Or.inl hx
    · exact Or.inr ((cell_le (Nat.le_succ _)).trans hx)
  · rcases hx with hx | hx
    · exact Or.inl (hx.trans ((cell_lt_iff hsize).2 (Nat.lt_succ_self k)))
    · exact Or.inr hx

section Ordered

variable (h : Comparison cmp)

include h

theorem insertBack_spec (hsize : 0 < size) (hsorted : Sorted cmp (elts size mem a 0 k)) :
    Sorted cmp (elts size (insertBack cmp size a k mem) a 0 (k + 1)) ∧
      Stably cmp (elts size (insertBack cmp size a k mem) a 0 (k + 1)) (elts size mem a 0 (k + 1)) ∧
      Within size a 0 (k + 1) mem (insertBack cmp size a k mem) := by
  induction k generalizing mem with
  | zero => exact ⟨List.pairwise_singleton _ _, Stably.refl _, Within.refl⟩
  | succ k ih =>
    rw [elts_succ, Nat.zero_add] at hsorted
    obtain ⟨hfront, -, hlast⟩ := sorted_append.1 hsorted
    have hsplit : elts size mem a 0 (k + 1 + 1) = elts size mem a 0 k ++
        [elt size mem (cell size a k)] ++ [elt size mem (cell size a (k + 1))] := by
      rw [elts_succ, elts_succ, Nat.zero_add, Nat.zero_add]
    have ht : a + (k + 1) * size = cell size a (k + 1) := rfl
    have hu : cell size a (k + 1) - size = cell size a k := by
      rw [cell_succ, Nat.add_sub_cancel]
    rw [insertBack, ht]
    rw [hu]
    by_cases hle : cmp (elt size mem (cell size a k)) (elt size mem (cell size a (k + 1))) ≤ 0
    · rw [if_pos hle]
      refine ⟨?_, Stably.refl _, Within.refl⟩
      rw [hsplit]
      refine sorted_append.2 ⟨hsorted, List.pairwise_singleton _ _, fun x hx y hy => ?_⟩
      rw [List.mem_singleton.1 hy]
      rcases List.mem_append.1 hx with hx | hx
      · exact h.trans _ _ _ (hlast x hx _ List.mem_cons_self) hle
      · rw [List.mem_singleton.1 hx]
        exact hle
    · rw [if_neg hle, swap]
      obtain ⟨hpair, hwithin⟩ := swap_pair (a := a) (k := k) mem hsize
      generalize swapBytes size (cell size a k) (cell size a (k + 1)) mem = mem₁ at *
      have hfirst : elts size mem₁ a 0 k = elts size mem a 0 k :=
        elts_congr (hwithin.same_before (by rw [Nat.zero_add]))
      have hpair' : elt size mem₁ (cell size a k) = elt size mem (cell size a (k + 1)) ∧
          elt size mem₁ (cell size a (k + 1)) = elt size mem (cell size a k) := by
        rw [elts_cons, elts_cons] at hpair
        exact ⟨(List.cons.inj hpair).1, (List.cons.inj (List.cons.inj hpair).2).1⟩
      obtain ⟨hs, hst, hw⟩ := ih (hfirst ▸ hfront)
      generalize insertBack cmp size a k mem₁ = mem₂ at *
      -- the element that was before it is now behind all of them
      have hkeep : elt size mem₂ (cell size a (k + 1)) = elt size mem (cell size a k) := by
        rw [← hpair'.2]
        exact elt_congr (hw.same_behind (Nat.le_refl _))
      have hsplit₁ : elts size mem₁ a 0 (k + 1) =
          elts size mem a 0 k ++ [elt size mem (cell size a (k + 1))] := by
        rw [elts_succ, Nat.zero_add, hfirst, hpair'.1]
      have hsplit₂ : elts size mem₂ a 0 (k + 1 + 1) =
          elts size mem₂ a 0 (k + 1) ++ [elt size mem (cell size a k)] := by
        rw [elts_succ, Nat.zero_add, hkeep]
      rw [hsplit₁] at hst
      refine ⟨?_, ?_, (hwithin.mono (Nat.zero_le k) (Nat.le_refl _)).trans
        (hw.mono (Nat.le_refl 0) (Nat.le_succ _))⟩
      · rw [hsplit₂]
        refine sorted_append.2 ⟨hs, List.pairwise_singleton _ _, fun x hx y hy => ?_⟩
        rw [List.mem_singleton.1 hy]
        rcases List.mem_append.1 (hst.perm.mem_iff.1 hx) with hx | hx
        · exact hlast x hx _ List.mem_cons_self
        · rw [List.mem_singleton.1 hx]
          exact h.le_of_lt (Int.not_le.1 hle)
      · rw [hsplit₂, hsplit, List.append_assoc (elts size mem a 0 k)]
        refine (hst.append (Stably.refl _)).trans ?_
        rw [List.append_assoc]
        refine (Stably.refl _).append (stably_comm h (l := [_]) (m := [_]) fun x hx y hy => ?_)
        rw [List.mem_singleton.1 hx, List.mem_singleton.1 hy]
        exact (Int.not_le.1 hle).ne'

theorem insertionLoop_spec (hsize : 0 < size) (hsorted : Sorted cmp (elts size mem a 0 k)) :
    Sorted cmp (elts size (insertionLoop cmp size a n k mem) a 0 (k + n)) ∧
      Stably cmp (elts size (insertionLoop cmp size a n k mem) a 0 (k + n))
        (elts size mem a 0 (k + n)) ∧
      Within size a 0 (k + n) mem (insertionLoop cmp size a n k mem) := by
  induction n generalizing k mem with
  | zero => exact ⟨hsorted, Stably.refl _, Within.refl⟩
  | succ n ih =>
    obtain ⟨hs, hst, hw⟩ := insertBack_spec h hsize hsorted
    obtain ⟨hs', hst', hw'⟩ := ih hs
    have hlen : k + 1 + n = k + (n + 1) := by omega
    rw [hlen] at hs' hst' hw'
    have hle : k + 1 ≤ k + (n + 1) := by omega
    exact ⟨hs', hst'.trans (hw.stably (Nat.zero_le _) hle hst),
      (hw.mono (Nat.le_refl 0) hle).trans hw'⟩

theorem insertionsort_spec (mem : Mem) (hsize : 0 < size) (hn : 1 ≤ n) :
    Sorted cmp (elts size (insertionsort cmp size a n mem) a 0 n) ∧
      Stably cmp (elts size (insertionsort cmp size a n mem) a 0 n) (elts size mem a 0 n) ∧
      Within size a 0 n mem (insertionsort cmp size a n mem) := by
  have hone : Sorted cmp (elts size mem a 0 1) := List.pairwise_singleton _ _
  have hspec := insertionLoop_spec (n := n - 1) h hsize hone
  rwa [Nat.add_sub_cancel' hn] at hspec

end Ordered

theorem reverse_spec (mem : Mem) {fuel : ℕ} (hsize : 0 < size) (hij : i < j) (hfuel : j ≤ i + fuel)
    :
    elts size (reverse size fuel (cell size a i) (cell size a j) mem) a i (j + 1 - i) =
        (elts size mem a i (j + 1 - i)).reverse ∧
      Within size a i (j + 1) mem (reverse size fuel (cell size a i) (cell size a j) mem) := by
  induction fuel generalizing i j mem with
  | zero => omega
  | succ fuel ih =>
    obtain ⟨j, rfl⟩ : ∃ j', j = j' + 1 := ⟨j - 1, by omega⟩
    have hi : cell size a i + size = cell size a (i + 1) := cell_succ.symm
    have hj : cell size a (j + 1) + size - 2 * size = cell size a j := by
      rw [cell_succ]
      omega
    obtain ⟨hfirst, hsecond, hrest⟩ := swap_spec mem hij
    rw [reverse, hi, hj]
    generalize swapBytes size (cell size a i) (cell size a (j + 1)) mem = mem₁ at *
    have hwithin : Within size a i (j + 1 + 1) mem mem₁ := fun x hx => hrest x
      (hx.imp_right (cell_le (by omega)).trans) (hx.imp_left fun hlt =>
        hlt.trans_le (cell_le (by omega)))
    have hsplit : ∀ m : Mem, elts size m a i (j + 1 + 1 - i) = [elt size m (cell size a i)] ++
        elts size m a (i + 1) (j - i) ++ [elt size m (cell size a (j + 1))] := fun m => by
      rw [show j + 1 + 1 - i = (j - i + 1) + 1 by omega, elts_succ, elts_cons,
        show i + (j - i + 1) = j + 1 by omega]
      rfl
    have hmid : elts size mem₁ a (i + 1) (j - i) = elts size mem a (i + 1) (j - i) := by
      refine elts_congr fun x hx₁ hx₂ => hrest x (Or.inr hx₁) (Or.inl ?_)
      rwa [show i + 1 + (j - i) = j + 1 by omega] at hx₂
    by_cases hlt : cell size a (i + 1) < cell size a j
    · rw [if_pos hlt]
      rw [cell_lt_iff hsize] at hlt
      obtain ⟨hrev, hw⟩ := ih mem₁ hlt (by omega)
      generalize reverse size fuel (cell size a (i + 1)) (cell size a j) mem₁ = mem₂ at *
      rw [show j + 1 - (i + 1) = j - i by omega, hmid] at hrev
      have hfirst' : elt size mem₂ (cell size a i) = elt size mem₁ (cell size a i) :=
        elt_congr (hw.same_before (cell_succ_le (Nat.lt_succ_self i)))
      have hlast' : elt size mem₂ (cell size a (j + 1)) = elt size mem₁ (cell size a (j + 1)) :=
        elt_congr (hw.same_behind (Nat.le_refl _))
      refine ⟨?_, hwithin.trans (hw.mono (Nat.le_succ i) (Nat.le_succ _))⟩
      rw [hsplit mem₂, hsplit mem, hrev, hfirst', hlast', hfirst, hsecond]
      simp
    · -- at most one element is left between them
      rw [if_neg hlt]
      rw [cell_lt_iff hsize] at hlt
      refine ⟨?_, hwithin⟩
      rw [hsplit mem₁, hsplit mem, hmid, hfirst, hsecond]
      have hshort : j - i = 0 ∨ j - i = 1 := by omega
      rcases hshort with hshort | hshort
      · rw [hshort]
        rfl
      · rw [hshort]
        rfl

end Bsdi.Mergesort
