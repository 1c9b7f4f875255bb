import Bsdi.Lib.StableSort
import Mathlib.Data.List.Nodup
import Mathlib.Data.List.Range
import Mathlib.Logic.Equiv.Basic

/-!
# Heaps in arrays

A heap in the places `1` to `n` of an array, where `i / 2` is the parent of place `i` and no element
is greater than its parent. A hole moves down and up and is filled.
-/

namespace Bsdi.Lib

open Function

variable {α : Type*} {cmp : α → α → ℤ} {A B : ℕ → α} {lo n p c i j : ℕ}

/-- Two values of a list of values change places. -/
theorem perm_map_swap {l : List ℕ} (hl : l.Nodup) (hi : i ∈ l) (hj : j ∈ l) :
    (l.map (A ∘ Equiv.swap i j)).Perm (l.map A) := by
  have hperm : (l.map (Equiv.swap i j)).Perm l := by
    refine (List.perm_ext_iff_of_nodup (hl.map (Equiv.swap i j).injective) hl).2 fun k => ?_
    rw [List.mem_map]
    constructor
    · rintro ⟨x, hx, rfl⟩
      by_cases hxi : x = i
      · rwa [hxi, Equiv.swap_apply_left]
      by_cases hxj : x = j
      · rwa [hxj, Equiv.swap_apply_right]
      · rwa [Equiv.swap_apply_of_ne_of_ne hxi hxj]
    · intro hk
      refine ⟨Equiv.swap i j k, ?_, Equiv.swap_apply_self i j k⟩
      by_cases hki : k = i
      · rwa [hki, Equiv.swap_apply_left]
      by_cases hkj : k = j
      · rwa [hkj, Equiv.swap_apply_right]
      · rwa [Equiv.swap_apply_of_ne_of_ne hki hkj]
  rw [← List.map_map]
  exact hperm.map A

/-- The values at the places `1` to `n`. -/
def contents (A : ℕ → α) (n : ℕ) : List α := (List.range' 1 n).map A

theorem contents_swap (hi : 1 ≤ i) (hin : i ≤ n) (hj : 1 ≤ j) (hjn : j ≤ n) :
    (contents (A ∘ Equiv.swap i j) n).Perm (contents A n) :=
  perm_map_swap List.nodup_range' (List.mem_range'_1.2 ⟨hi, by omega⟩)
    (List.mem_range'_1.2 ⟨hj, by omega⟩)

theorem contents_succ : contents A (n + 1) = contents A n ++ [A (n + 1)] := by
  rw [contents, List.range'_1_concat, List.map_append, List.map_singleton, Nat.add_comm 1 n]
  rfl

theorem contents_congr (h : ∀ i, 1 ≤ i → i ≤ n → A i = B i) : contents A n = contents B n := by
  refine List.map_congr_left fun i hi => h i (List.mem_range'_1.1 hi).1 ?_
  have := (List.mem_range'_1.1 hi).2
  omega

theorem contents_update_one {k : α} (hn : 1 ≤ n) :
    contents (update A 1 k) n = k :: (contents A n).tail := by
  obtain ⟨n, rfl⟩ := Nat.exists_eq_add_of_le' hn
  rw [contents, contents, List.range'_succ, List.map_cons, List.map_cons, update_self,
    List.tail_cons, List.cons.injEq, and_iff_right rfl]
  refine List.map_congr_left fun i hi => update_of_ne ?_ _ _
  have := (List.mem_range'_1.1 hi).1
  omega

theorem mem_contents {x : α} : x ∈ contents A n ↔ ∃ i, 1 ≤ i ∧ i ≤ n ∧ A i = x := by
  simp only [contents, List.mem_map, List.mem_range'_1]
  constructor
  · rintro ⟨i, hi, rfl⟩
    exact ⟨i, hi.1, by omega, rfl⟩
  · rintro ⟨i, h₁, h₂, rfl⟩
    exact ⟨i, ⟨h₁, by omega⟩, rfl⟩

/-- No element with a parent at `lo` or behind is greater than its parent. -/
def HeapFrom (cmp : α → α → ℤ) (A : ℕ → α) (lo n : ℕ) : Prop :=
  ∀ i, i ≤ n → lo ≤ i / 2 → cmp (A i) (A (i / 2)) ≤ 0

/-- The heap order from `lo` on, where only the children of `p` may be greater than `p`. -/
structure SiftAt (cmp : α → α → ℤ) (A : ℕ → α) (lo n p : ℕ) : Prop where
  off : ∀ i, i ≤ n → lo ≤ i / 2 → i / 2 ≠ p → cmp (A i) (A (i / 2)) ≤ 0
  grand : lo ≤ p / 2 → ∀ i, i ≤ n → i / 2 = p → cmp (A i) (A (p / 2)) ≤ 0

/-- No child of `p` is greater than its child `c`. -/
structure MaxChild (cmp : α → α → ℤ) (A : ℕ → α) (n p c : ℕ) : Prop where
  parent : c / 2 = p
  le : c ≤ n
  max : ∀ i, i ≤ n → i / 2 = p → cmp (A i) (A c) ≤ 0

theorem HeapFrom.leaves (h : n < 2 * lo) : HeapFrom cmp A lo n := fun i hi hp => by omega

theorem HeapFrom.siftAt (hheap : HeapFrom cmp A (p + 1) n) (hp : 1 ≤ p) : SiftAt cmp A p n p where
  off i hi hle hne := hheap i hi (by omega)
  grand hle := absurd hle (by omega)

section

variable (h : Comparison cmp)

include h

theorem maxChild_ite (hn : p * 2 ≤ n) :
    MaxChild cmp A n p
      (if p * 2 < n ∧ cmp (A (p * 2)) (A (p * 2 + 1)) < 0 then p * 2 + 1 else p * 2) := by
  have hchild : ∀ i, i / 2 = p → i = p * 2 ∨ i = p * 2 + 1 := fun i hi => by omega
  by_cases hless : p * 2 < n ∧ cmp (A (p * 2)) (A (p * 2 + 1)) < 0
  · rw [if_pos hless]
    refine ⟨by omega, by omega, fun i _ hi => ?_⟩
    rcases hchild i hi with rfl | rfl
    · exact hless.2.le
    · exact h.le_self _
  · rw [if_neg hless]
    refine ⟨by omega, hn, fun i hin hi => ?_⟩
    rcases hchild i hi with rfl | rfl
    · exact h.le_self _
    · exact (h.sign _ _).2 (not_lt.1 fun hlt => hless ⟨by omega, hlt⟩)

theorem HeapFrom.le_root (hheap : HeapFrom cmp A 1 n) (hi : 1 ≤ i) (hn : i ≤ n) :
    cmp (A i) (A 1) ≤ 0 := by
  induction i using Nat.strong_induction_on with
  | _ i ih =>
    rcases Nat.eq_or_lt_of_le hi with rfl | hlt
    · exact h.le_self _
    · exact h.trans _ _ _ (hheap i hn (by omega)) (ih (i / 2) (by omega) (by omega) (by omega))

/-- The heap is in order when the place is not less than its children. -/
theorem SiftAt.done (hsift : SiftAt cmp A lo n p) (hc : MaxChild cmp A n p c)
    (hle : cmp (A c) (A p) ≤ 0) : HeapFrom cmp A lo n := by
  intro i hi hlo
  by_cases hp : i / 2 = p
  · rw [hp]
    exact h.trans _ _ _ (hc.max i hi hp) hle
  · exact hsift.off i hi hlo hp

omit h in
theorem SiftAt.leaf (hsift : SiftAt cmp A lo n p) (hp : n < p * 2) : HeapFrom cmp A lo n :=
  fun i hi hlo => hsift.off i hi hlo (by omega)

/-- A place that is less than its greater child changes places with it. -/
theorem SiftAt.swap (hsift : SiftAt cmp A lo n p) (hc : MaxChild cmp A n p c) (hlo : 1 ≤ lo)
    (hp : lo ≤ p) (hlt : 0 < cmp (A c) (A p)) :
    SiftAt cmp (A ∘ Equiv.swap p c) lo n c := by
  have hparent := hc.parent
  have hother : ∀ i, i ≠ p → i ≠ c → (A ∘ Equiv.swap p c) i = A i := fun i hi₁ hi₂ =>
    congrArg A (Equiv.swap_apply_of_ne_of_ne hi₁ hi₂)
  have hleft : (A ∘ Equiv.swap p c) p = A c := congrArg A (Equiv.swap_apply_left p c)
  have hright : (A ∘ Equiv.swap p c) c = A p := congrArg A (Equiv.swap_apply_right p c)
  refine ⟨fun i hi hle hne => ?_, fun _ i hi hic => ?_⟩
  · by_cases hip : i / 2 = p
    · -- the children of the place
      rw [hip, hleft]
      by_cases hic : i = c
      · rw [hic, hright]
        exact h.le_of_lt hlt
      · rw [hother i (by omega) hic]
        exact hc.max i hi hip
    · rw [hother (i / 2) hip hne]
      by_cases heq : i = p
      · rw [heq, hleft]
        exact hsift.grand (heq ▸ hle) c hc.le hparent
      · rw [hother i heq (by rintro rfl; exact hip hparent)]
        exact hsift.off i hi hle hip
  · rw [hparent, hleft, hother i (by omega) (by omega), ← hic]
    exact hsift.off i hi (by omega) (by omega)

theorem HeapFrom.down (hheap : HeapFrom cmp A 1 n) (hc : MaxChild cmp A n p c) (hp : 1 ≤ p) :
    HeapFrom cmp (update A p (A c)) 1 n := by
  intro i hi hlo
  have hcp : cmp (A c) (A p) ≤ 0 := hc.parent ▸ hheap c hc.le (hc.parent.symm ▸ hp)
  by_cases hip : i / 2 = p
  · rw [hip, update_self, update_of_ne (by omega)]
    exact hc.max i hi hip
  · rw [update_of_ne hip]
    by_cases heq : i = p
    · rw [heq, update_self]
      exact h.trans _ _ _ hcp (heq ▸ hheap i hi hlo)
    · rw [update_of_ne heq]
      exact hheap i hi hlo

theorem HeapFrom.up (hheap : HeapFrom cmp A 1 n) (hj : 2 ≤ j) (hn : j ≤ n) :
    HeapFrom cmp (update A j (A (j / 2))) 1 n := by
  intro i hi hlo
  by_cases hij : i / 2 = j
  · rw [hij, update_self, update_of_ne (by omega)]
    exact h.trans _ _ _ (hij ▸ hheap i hi hlo) (hheap j hn (by omega))
  · rw [update_of_ne hij]
    by_cases heq : i = j
    · rw [heq, update_self]
      exact h.le_self _
    · rw [update_of_ne heq]
      exact hheap i hi hlo

omit h in
theorem HeapFrom.place {k : α} (hheap : HeapFrom cmp A 1 n) (hj : 1 ≤ j)
    (hkids : ∀ i, i ≤ n → i / 2 = j → cmp (A i) k ≤ 0)
    (hparent : j = 1 ∨ cmp k (A (j / 2)) ≤ 0) : HeapFrom cmp (update A j k) 1 n := by
  intro i hi hlo
  by_cases hij : i / 2 = j
  · rw [hij, update_self, update_of_ne (by omega)]
    exact hkids i hi hij
  · rw [update_of_ne hij]
    by_cases heq : i = j
    · rw [heq, update_self]
      exact hparent.resolve_left (by omega)
    · rw [update_of_ne heq]
      exact hheap i hi hlo

end

/-- A hole for `k` moves from `p` to `c`, the element at `c` to `p`. -/
theorem contents_hole {k : α} (hp : 1 ≤ p) (hpn : p ≤ n) (hc : 1 ≤ c) (hcn : c ≤ n) (hne : p ≠ c) :
    (contents (update (update A p (A c)) c k) n).Perm (contents (update A p k) n) := by
  have hswap : update (update A p (A c)) c k = update A p k ∘ Equiv.swap p c := by
    funext i
    rw [comp_apply]
    by_cases hic : i = c
    · rw [hic, update_self, Equiv.swap_apply_right, update_self]
    rw [update_of_ne hic]
    by_cases hip : i = p
    · rw [hip, update_self, Equiv.swap_apply_left, update_of_ne hne.symm]
    · rw [update_of_ne hip, Equiv.swap_apply_of_ne_of_ne hip hic, update_of_ne hip]
  rw [hswap]
  exact contents_swap hp hpn hc hcn

/-- The last element is taken out of the places `1` to `n` and put for the first one. -/
theorem contents_last : (contents (update A 1 (A (n + 2))) (n + 1) ++ [A 1]).Perm
    (contents A (n + 2)) := by
  have hswap : contents (A ∘ Equiv.swap 1 (n + 2)) (n + 2) =
      contents (update A 1 (A (n + 2))) (n + 1) ++ [A 1] := by
    rw [contents_succ, comp_apply, Equiv.swap_apply_right]
    congr 1
    refine contents_congr fun i hi hin => ?_
    rw [comp_apply]
    by_cases hone : i = 1
    · rw [hone, Equiv.swap_apply_left, update_self]
    · rw [Equiv.swap_apply_of_ne_of_ne hone (by omega), update_of_ne hone]
  rw [← hswap]
  exact contents_swap (Nat.le_refl 1) (by omega) (by omega) (Nat.le_refl _)

end Bsdi.Lib
