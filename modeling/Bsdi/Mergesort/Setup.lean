import Bsdi.Mergesort.Runs

/-!
# The first pass

`setup` leaves runs: pairs that are put in order, and natural runs, which are reversed if they
descend. Pairs of one sense are handled together.
-/

namespace Bsdi.Mergesort

open Bsdi.Lib

variable {cmp : Elem → Elem → ℤ} {size n i j k r : ℕ} {mem mem' mem₁ mem₂ : Mem} {links data : ℕ}
  {sense : Bool}

/-- Only elements `i` to `j` of the two arrays change. -/
def Change (size links data i j : ℕ) (mem mem' : Mem) : Prop :=
  ∀ x, (x < cell size links i ∨ cell size links j ≤ x) →
    (x < cell size data i ∨ cell size data j ≤ x) → mem'.byte x = mem.byte x

theorem Change.refl : Change size links data i j mem mem := fun _ _ _ => rfl

theorem Change.trans (h : Change size links data i j mem mem₁)
    (h' : Change size links data i j mem₁ mem') : Change size links data i j mem mem' :=
  fun x h₁ h₂ => (h' x h₁ h₂).trans (h x h₁ h₂)

theorem Change.mono {i' j' : ℕ} (h : Change size links data i j mem mem') (hi : i' ≤ i)
    (hj : j ≤ j') : Change size links data i' j' mem mem' := fun x h₁ h₂ =>
  h x (h₁.imp (fun hx => hx.trans_le (cell_le hi)) (cell_le hj).trans)
    (h₂.imp (fun hx => hx.trans_le (cell_le hi)) (cell_le hj).trans)

theorem Change.same_data (h : Change size links data i j mem mem') (hp : Places size n links data)
    (hj : j ≤ n) {lo hi : ℕ} (hhi : hi ≤ n) (hout : hi ≤ i ∨ j ≤ lo) :
    Same mem mem' (cell size data lo) (cell size data hi) := fun x h₁ h₂ => by
  refine h x ?_ ?_
  · rcases hp.parts lo i hhi hj with hparts | hparts
    · exact Or.inl (h₂.trans_le hparts)
    · exact Or.inr (hparts.trans h₁)
  · exact hout.imp (fun hle => h₂.trans_le (cell_le hle)) fun hle => (cell_le hle).trans h₁

theorem Change.same_links (h : Change size links data i j mem mem') (hp : Places size n links data)
    (hj : j ≤ n) {lo hi : ℕ} (hhi : hi ≤ n) (hout : hi ≤ i ∨ j ≤ lo) :
    Same mem mem' (cell size links lo) (cell size links hi) := fun x h₁ h₂ => by
  refine h x ?_ ?_
  · exact hout.imp (fun hle => h₂.trans_le (cell_le hle)) fun hle => (cell_le hle).trans h₁
  · rcases hp.parts i lo hj hhi with hparts | hparts
    · exact Or.inr (hparts.trans h₁)
    · exact Or.inl (h₂.trans_le hparts)

theorem Within.change (h : Within size data i j mem mem') : Change size links data i j mem mem' :=
  fun x _ h₂ => h x h₂

theorem setLink_change {p : ℕ} (hplace : eval (cell size links i) + 4 ≤ cell size links j) :
    Change size links data i j mem (setLink mem (cell size links i) p) := fun x h₁ _ => by
  have := le_eval (cell size links i)
  exact setLink_outside (by omega)

theorem setLink_data {p lo hi : ℕ} (hp : Places size n links data)
    (hplace : eval (cell size links i) + 4 ≤ cell size links j) (hj : j ≤ n) (hhi : hi ≤ n) :
    Same mem (setLink mem (cell size links i) p) (cell size data lo) (cell size data hi) :=
  fun x h₁ h₂ => by
    have := le_eval (cell size links i)
    have := hp.parts lo i hhi hj
    exact setLink_outside (by omega)

/-- Elements `i` to `j` have become runs. -/
structure Grouped (cmp : Elem → Elem → ℤ) (size links data : ℕ) (mem mem' : Mem) (i j : ℕ) :
    Prop where
  runs : ∃ r, Runs cmp size mem' links data r i j
  stably : Stably cmp (elts size mem' data i (j - i)) (elts size mem data i (j - i))
  change : Change size links data i j mem mem'

theorem Grouped.refl : Grouped cmp size links data mem mem i i :=
  ⟨⟨0, Runs.nil⟩, Stably.refl _, Change.refl⟩

theorem Grouped.le (h : Grouped cmp size links data mem mem' i j) : i ≤ j :=
  h.runs.elim fun _ hruns => hruns.le

theorem Grouped.trans (h : Grouped cmp size links data mem mem₁ i j)
    (h' : Grouped cmp size links data mem₁ mem' j k) (hp : Places size n links data) (hk : k ≤ n) :
    Grouped cmp size links data mem mem' i k := by
  have hj := h'.le.trans hk
  obtain ⟨r, hr⟩ := h.runs
  obtain ⟨r', hr'⟩ := h'.runs
  have hr₁ := hr.congr (h'.change.same_links hp hk hj (Or.inl (Nat.le_refl _)))
    (h'.change.same_data hp hk hj (Or.inl (Nat.le_refl _)))
  refine ⟨⟨r + r', hr₁.append hr'⟩, ?_, ?_⟩
  · rw [elts_split h.le h'.le, elts_split h.le h'.le,
      elts_data (h'.change.same_data hp hk hj (Or.inl (Nat.le_refl _))) h.le]
    refine h.stably.append ?_
    rw [← elts_data (h.change.same_data hp hj hk (Or.inr (Nat.le_refl _))) h'.le]
    exact h'.stably
  · exact (h.change.mono (Nat.le_refl _) h'.le).trans (h'.change.mono h.le (Nat.le_refl _))

theorem grouped_of_link (hp : Places size n links data) (two : i + 2 ≤ j) (hj : j ≤ n)
    (hplace : eval (cell size links i) + 4 ≤ cell size links j)
    (hm : mem₁ = setLink mem (cell size links i) (cell size links j))
    (hsorted : Sorted cmp (elts size mem' data i (j - i)))
    (hstably : Stably cmp (elts size mem' data i (j - i)) (elts size mem₁ data i (j - i)))
    (hwithin : Within size data i j mem₁ mem') : Grouped cmp size links data mem mem' i j := by
  subst hm
  refine ⟨⟨1, Runs.cons ⟨two, hplace, ?_, hsorted⟩ Runs.nil⟩, ?_, ?_⟩
  · rw [link_congr fun x h₁ h₂ => hwithin x ?_, link_setLink (hp.lt hj)]
    have := le_eval (cell size links i)
    have := hp.parts i i hj hj
    omega
  · rwa [elts_data (setLink_data hp hplace hj hj) (by omega)] at hstably
  · exact (setLink_change hplace).trans hwithin.change

theorem run_of_link (hp : Places size n links data) (two : i + 2 ≤ j) (hj : j ≤ n)
    (hplace : eval (cell size links i) + 4 ≤ cell size links j)
    (hsorted : Sorted cmp (elts size mem data i (j - i))) :
    Run cmp size (setLink mem (cell size links i) (cell size links j)) links data i j := by
  refine ⟨two, hplace, link_setLink (hp.lt hj), ?_⟩
  rwa [elts_data (setLink_data hp hplace hj hj) (by omega)]

def Mono (cmp : Elem → Elem → ℤ) (sense : Bool) (l : List Elem) : Prop :=
  l.Pairwise fun x y => decide (0 < cmp x y) = sense

theorem mono_pair {x y : Elem} (hxy : decide (0 < cmp x y) = sense) : Mono cmp sense [x, y] :=
  List.pairwise_pair.2 hxy

section Ordered

variable (h : Comparison cmp)

include h

theorem Mono.snoc {l : List Elem} {x y : Elem} (hm : Mono cmp sense (l ++ [x]))
    (hxy : decide (0 < cmp x y) = sense) : Mono cmp sense (l ++ [x] ++ [y]) := by
  refine List.pairwise_append.2 ⟨hm, List.pairwise_singleton _ _, fun a ha b hb => ?_⟩
  rw [List.mem_singleton.1 hb]
  obtain ⟨-, -, hlast⟩ := List.pairwise_append.1 hm
  rcases List.mem_append.1 ha with ha | ha
  · have hax := hlast a ha x (List.mem_singleton_self x)
    cases sense with
    | true =>
      simp only [decide_eq_true_eq] at hax hxy ⊢
      exact h.pos_of_pos_of_le hax (h.le_of_lt hxy)
    | false =>
      simp only [decide_eq_false_iff_not, Int.not_lt] at hax hxy ⊢
      exact h.trans a x y hax hxy
  · rwa [List.mem_singleton.1 ha]

theorem settle_spec (hsize : 0 < size) (hij : i + 2 ≤ j)
    (hmono : Mono cmp sense (elts size mem data i (j - i)))
    (hm : mem' = if sense then
      reverse size (cell size data j) (cell size data i) (cell size data j - size) mem else mem) :
    Sorted cmp (elts size mem' data i (j - i)) ∧
      Stably cmp (elts size mem' data i (j - i)) (elts size mem data i (j - i)) ∧
        Within size data i j mem mem' := by
  subst hm
  cases sense with
  | true =>
    obtain ⟨j, rfl⟩ : ∃ j', j = j' + 1 := ⟨j - 1, by omega⟩
    have hmono' : (elts size mem data i (j + 1 - i)).Pairwise fun x y => 0 < cmp x y :=
      hmono.imp fun hxy => of_decide_eq_true hxy
    have hfuel : j ≤ i + cell size data (j + 1) := by
      have : j + 1 ≤ (j + 1) * size := Nat.le_mul_of_pos_right _ hsize
      rw [cell]
      omega
    obtain ⟨hrev, hwithin⟩ := reverse_spec (a := data) mem hsize (by omega) hfuel
    rw [if_pos rfl, cell_succ, Nat.add_sub_cancel, ← cell_succ, hrev]
    exact ⟨sorted_reverse h hmono', stably_reverse h hmono', hwithin⟩
  | false =>
    rw [if_neg Bool.false_ne_true]
    exact ⟨hmono.imp fun hxy => Int.not_lt.1 (of_decide_eq_false hxy), Stably.refl _, Within.refl⟩

theorem order_spec (hsize : 0 < size)
    (hpair : hasSense cmp size mem (cell size data i) (cell size data (i + 1)) = sense)
    (hm : mem' = if sense then swap size (cell size data i) (cell size data (i + 1)) mem else mem) :
    Sorted cmp (elts size mem' data i 2) ∧
      Stably cmp (elts size mem' data i 2) (elts size mem data i 2) ∧
        Within size data i (i + 2) mem mem' := by
  subst hm
  have helts : elts size mem data i 2 =
      [elt size mem (cell size data i), elt size mem (cell size data (i + 1))] := rfl
  cases sense with
  | true =>
    have hgt := of_decide_eq_true hpair
    obtain ⟨hswap, hwithin⟩ := swap_pair (a := data) (k := i) mem hsize
    rw [if_pos rfl, swap, hswap, helts]
    exact ⟨List.pairwise_pair.2 (h.le_of_lt hgt),
      stably_reverse (l := [_, _]) h (List.pairwise_pair.2 hgt), hwithin⟩
  | false =>
    rw [if_neg Bool.false_ne_true, helts]
    exact ⟨List.pairwise_pair.2 (Int.not_lt.1 (of_decide_eq_false hpair)), Stably.refl _,
      Within.refl⟩

end Ordered

/-- Every pair from `i` to `j` compares with the given sense. -/
def AllSense (cmp : Elem → Elem → ℤ) (size : ℕ) (mem : Mem) (data i j : ℕ) (sense : Bool) : Prop :=
  ∀ e, i ≤ e → e < j → e % 2 = 0 →
    hasSense cmp size mem (cell size data e) (cell size data (e + 1)) = sense

theorem elt_data (hs : Same mem mem' (cell size data i) (cell size data j)) (hik : i ≤ k)
    (hkj : k < j) : elt size mem' (cell size data k) = elt size mem (cell size data k) :=
  elt_congr fun x h₁ h₂ => hs x ((cell_le hik).trans h₁) (h₂.trans_le (cell_succ_le hkj))

theorem hasSense_congr (hs : Same mem mem' (cell size data i) (cell size data j)) (hik : i ≤ k)
    (hkj : k + 1 < j) : hasSense cmp size mem' (cell size data k) (cell size data (k + 1)) =
      hasSense cmp size mem (cell size data k) (cell size data (k + 1)) := by
  rw [hasSense, hasSense, elt_data hs hik (by omega), elt_data hs (by omega) hkj]

theorem AllSense.congr (ha : AllSense cmp size mem data i j sense) (hj : j % 2 = 0)
    (hs : Same mem mem' (cell size data i) (cell size data j)) :
    AllSense cmp size mem' data i j sense := fun e h₁ h₂ he => by
  rw [hasSense_congr hs h₁ (by omega), ha e h₁ h₂ he]

theorem AllSense.mono {i' : ℕ} (ha : AllSense cmp size mem data i j sense) (hi : i ≤ i') :
    AllSense cmp size mem data i' j sense := fun e h₁ h₂ he => ha e (hi.trans h₁) h₂ he

theorem cell_two : cell size data i + 2 * size = cell size data (i + 2) := cell_add.symm

theorem cell_pred (hi : 1 ≤ i) : cell size data i - size = cell size data (i - 1) := by
  obtain ⟨i, rfl⟩ := Nat.exists_eq_add_of_le' hi
  rw [cell_succ, Nat.add_sub_cancel, Nat.add_sub_cancel]

theorem cell_other : cell size data i - data + links = cell size links i := by
  rw [cell, cell]
  omega

theorem findPairs_spec (hsize : 0 < size) (fuel : ℕ) {stop : ℕ} (len : ℕ) (hik : k ≤ stop)
    (hk : k % 2 = 0) (hstop : stop % 2 = 0) (hfuel : stop ≤ k + 2 * fuel)
    (ha : AllSense cmp size mem data i k sense) :
    ∃ j, findPairs cmp size (cell size data stop) sense mem fuel (cell size data k) len =
        (cell size data j, len + (j - k)) ∧ k ≤ j ∧ j ≤ stop ∧ j % 2 = 0 ∧
      AllSense cmp size mem data i j sense ∧
      (j < stop → hasSense cmp size mem (cell size data j) (cell size data (j + 1)) ≠ sense) := by
  induction fuel generalizing k len with
  | zero =>
    exact ⟨k, by rw [findPairs, Nat.sub_self, Nat.add_zero], Nat.le_refl k, hik, hk, ha,
      fun hlt => by omega⟩
  | succ fuel ih =>
    rw [findPairs, cell_two, ← cell_succ]
    by_cases hlt : cell size data k < cell size data stop
    · rw [if_pos hlt]
      rw [cell_lt_iff hsize] at hlt
      by_cases hsense : hasSense cmp size mem (cell size data k) (cell size data (k + 1)) = sense
      · rw [if_neg (not_not.2 hsense)]
        have ha' : AllSense cmp size mem data i (k + 2) sense := fun e h₁ h₂ he => by
          rcases Nat.lt_or_ge e k with hek | hek
          · exact ha e h₁ hek he
          · obtain rfl : e = k := by omega
            exact hsense
        obtain ⟨j, heq, hkj, hrest⟩ := ih (k := k + 2) (len + 2) (by omega) (by omega)
          (by omega) ha'
        exact ⟨j, by rw [heq, show len + 2 + (j - (k + 2)) = len + (j - k) by omega], by omega,
          hrest⟩
      · rw [if_pos hsense]
        exact ⟨k, by rw [Nat.sub_self, Nat.add_zero], Nat.le_refl k, hik, hk, ha, fun _ => hsense⟩
    · rw [if_neg hlt]
      rw [cell_lt_iff hsize] at hlt
      exact ⟨k, by rw [Nat.sub_self, Nat.add_zero], Nat.le_refl k, hik, hk, ha,
        fun hlt' => absurd hlt' hlt⟩

section Loops

variable (h : Comparison cmp) (hp : Places size n links data) (halign : links % 4 = 0)

include h hp halign

theorem pairwise_spec (fuel : ℕ) (hij : i < j) (hi : i % 2 = 0) (hj : j % 2 = 0) (hjn : j ≤ n)
    (hfuel : j ≤ i + 2 * fuel) (ha : AllSense cmp size mem data i j sense) :
    ∃ mem', pairwise size data links (cell size data j) sense fuel (cell size data i)
        (cell size links i) mem = (cell size data j, cell size links j, mem') ∧
      Grouped cmp size links data mem mem' i j := by
  induction fuel generalizing i mem with
  | zero => omega
  | succ fuel ih =>
    have htwo : i + 2 ≤ n := by omega
    have hplace := pair_place (l := links) hp.two halign hi (Nat.le_refl (i + 2))
    have hpair : hasSense cmp size (setLink mem (cell size links i) (cell size links (i + 2)))
        (cell size data i) (cell size data (i + 1)) = sense := by
      rw [hasSense_congr (setLink_data hp hplace htwo htwo) (Nat.le_refl i) (Nat.lt_succ_self _),
        ha i (Nat.le_refl i) hij hi]
    obtain ⟨hsorted, hstably, hwithin⟩ := order_spec h hp.pos hpair rfl
    rw [pairwise, cell_two, cell_other, ← cell_succ]
    generalize hmem : (if sense then swap size (cell size data i) (cell size data (i + 1))
      (setLink mem (cell size links i) (cell size links (i + 2)))
      else setLink mem (cell size links i) (cell size links (i + 2))) = mem₁ at *
    have hsub : i + 2 - i = 2 := Nat.add_sub_cancel_left i 2
    have hfirst : Grouped cmp size links data mem mem₁ i (i + 2) :=
      grouped_of_link hp (Nat.le_refl _) htwo hplace rfl (by rwa [hsub]) (by rwa [hsub]) hwithin
    by_cases hlt : cell size data (i + 2) < cell size data j
    · simp only [if_pos hlt]
      rw [cell_lt_iff hp.pos] at hlt
      have ha' : AllSense cmp size mem₁ data (i + 2) j sense :=
        (ha.mono (Nat.le_add_right i 2)).congr hj
          (hfirst.change.same_data hp htwo hjn (Or.inr (Nat.le_refl _)))
      obtain ⟨mem', heq, hrest⟩ := ih hlt (by omega) (by omega) ha'
      exact ⟨mem', heq, hfirst.trans hrest hp hjn⟩
    · simp only [if_neg hlt]
      rw [cell_lt_iff hp.pos] at hlt
      obtain rfl : i + 2 = j := by omega
      exact ⟨mem₁, rfl, hfirst⟩

theorem natural_spec (fuel : ℕ) (hik : i + 2 ≤ k) (hkj : k ≤ j) (hi : i % 2 = 0) (hk : k % 2 = 0)
    (hj : j % 2 = 0) (hjn : j ≤ n) (hfuel : j ≤ k + 2 * fuel)
    (ha : AllSense cmp size mem data k j sense)
    (hmono : Mono cmp sense (elts size mem data i (k - i))) :
    ∃ i' mem', natural cmp size data links (cell size data j) sense fuel (cell size data i)
        (cell size data k) (cell size links i) mem =
          (cell size data i', cell size data j, cell size links i', mem') ∧
      i' + 2 ≤ j ∧ i' % 2 = 0 ∧ Grouped cmp size links data mem mem' i i' ∧
      Mono cmp sense (elts size mem' data i' (j - i')) := by
  induction fuel generalizing i k mem with
  | zero =>
    obtain rfl : k = j := by omega
    exact ⟨i, mem, rfl, hik, hi, Grouped.refl, hmono⟩
  | succ fuel ih =>
    rw [natural, cell_two, cell_other, cell_pred (by omega)]
    by_cases hlt : cell size data k < cell size data j
    · rw [if_pos hlt]
      rw [cell_lt_iff hp.pos] at hlt
      by_cases hsense : hasSense cmp size mem (cell size data (k - 1)) (cell size data k) = sense
      · rw [if_neg (not_not.2 hsense)]
        -- the run goes on with the next pair
        have hlast : elts size mem data i (k - i) =
            elts size mem data i (k - 1 - i) ++ [elt size mem (cell size data (k - 1))] := by
          rw [show k - i = k - 1 - i + 1 by omega, elts_succ, show i + (k - 1 - i) = k - 1 by omega]
        have hnext : elts size mem data i (k + 2 - i) = elts size mem data i (k - i) ++
            [elt size mem (cell size data k)] ++ [elt size mem (cell size data (k + 1))] := by
          rw [show k + 2 - i = k - i + 1 + 1 by omega, elts_succ, elts_succ,
            show i + (k - i) = k by omega, show i + (k - i + 1) = k + 1 by omega]
        rw [hlast] at hmono
        have hcross := hmono.snoc h hsense
        rw [← hlast] at hcross
        have hmono' := hcross.snoc h (ha k (Nat.le_refl k) hlt hk)
        rw [← hnext] at hmono'
        exact ih (by omega) (by omega) hi (by omega) (by omega)
          (ha.mono (Nat.le_add_right k 2)) hmono'
      · rw [if_pos hsense]
        have hkn : k ≤ n := by omega
        have hplace := pair_place (l := links) hp.two halign hi hik
        have hmono₁ : Mono cmp sense (elts size (setLink mem (cell size links i)
            (cell size links k)) data i (k - i)) := by
          rwa [elts_data (setLink_data hp hplace hkn hkn) (by omega)]
        obtain ⟨hsorted, hstably, hwithin⟩ := settle_spec h hp.pos hik hmono₁ rfl
        rw [cell_pred (by omega)] at hsorted hstably hwithin
        dsimp only
        generalize hmem : (if sense then reverse size (cell size data k) (cell size data i)
          (cell size data (k - 1)) (setLink mem (cell size links i) (cell size links k))
          else setLink mem (cell size links i) (cell size links k)) = mem₁ at *
        have hfirst : Grouped cmp size links data mem mem₁ i k :=
          grouped_of_link hp hik hkn hplace rfl hsorted hstably hwithin
        have ha' := ha.congr hj (hfirst.change.same_data hp hkn hjn (Or.inr (Nat.le_refl _)))
        have hpair : Mono cmp sense (elts size mem₁ data k (k + 2 - k)) := by
          rw [Nat.add_sub_cancel_left]
          exact mono_pair (ha' k (Nat.le_refl k) hlt hk)
        obtain ⟨i', mem', heq, hi', heven, hrest, hmono'⟩ := ih (Nat.le_refl (k + 2)) (by omega) hk
          (by omega) (by omega) (ha'.mono (Nat.le_add_right k 2)) hpair
        exact ⟨i', mem', heq, hi', heven, hfirst.trans hrest hp (by omega), hmono'⟩
    · rw [if_neg hlt]
      rw [cell_lt_iff hp.pos] at hlt
      obtain rfl : k = j := by omega
      exact ⟨i, mem, rfl, hik, hi, Grouped.refl, hmono⟩

end Loops

/-- Elements `i` to the end have become runs. -/
structure Chained (cmp : Elem → Elem → ℤ) (size n links data : ℕ) (mem mem' : Mem) (i : ℕ) :
    Prop where
  threaded : ∃ r, Threaded cmp size mem' links data r i n
  stably : Stably cmp (elts size mem' data i (n - i)) (elts size mem data i (n - i))
  change : Change size links data i n mem mem'

theorem Chained.le (h : Chained cmp size n links data mem mem' i) : i ≤ n := by
  obtain ⟨r, m, hruns, -, hm⟩ := h.threaded
  have := hruns.le
  omega

theorem Grouped.chain (h : Grouped cmp size links data mem mem₁ i j)
    (h' : Chained cmp size n links data mem₁ mem' j) (hp : Places size n links data) :
    Chained cmp size n links data mem mem' i := by
  have hj := h'.le
  obtain ⟨r, hr⟩ := h.runs
  obtain ⟨r', m, hruns, hlast, hm⟩ := h'.threaded
  have hr₁ := hr.congr
    (h'.change.same_links hp (Nat.le_refl n) hj (Or.inl (Nat.le_refl _)))
    (h'.change.same_data hp (Nat.le_refl n) hj (Or.inl (Nat.le_refl _)))
  refine ⟨⟨r + r', m, hr₁.append hruns, hlast, hm⟩, ?_, ?_⟩
  · rw [elts_split h.le hj, elts_split h.le hj,
      elts_data (h'.change.same_data hp (Nat.le_refl n) hj (Or.inl (Nat.le_refl _))) h.le]
    refine h.stably.append ?_
    rw [← elts_data (h.change.same_data hp hj (Nat.le_refl n) (Or.inr (Nat.le_refl _))) hj]
    exact h'.stably
  · exact (h.change.mono (Nat.le_refl _) hj).trans (h'.change.mono h.le (Nat.le_refl _))

theorem sorted_join (h : Comparison cmp) (hij : i < j) (hjk : j < k)
    (hfirst : Sorted cmp (elts size mem data i (j - i)))
    (hlast : Sorted cmp (elts size mem data j (k - j)))
    (hle : cmp (elt size mem (cell size data (j - 1))) (elt size mem (cell size data j)) ≤ 0) :
    Sorted cmp (elts size mem data i (k - i)) := by
  rw [elts_split hij.le hjk.le]
  refine sorted_append.2 ⟨hfirst, hlast, fun x hx y hy => ?_⟩
  exact h.trans _ _ _ (le_last h hij hfirst hx) (h.trans _ _ _ hle (first_le h hjk hlast hy))

section Pass

variable (h : Comparison cmp) (hp : Places size n links data) (halign : links % 4 = 0)

include h hp halign

theorem setupLoop_spec (fuel : ℕ) {stop : ℕ} (his : i ≤ stop) (hi : i % 2 = 0)
    (hstop : stop % 2 = 0)
    (hsn : stop + 4 ≤ n) (hfuel : stop ≤ i + 2 * fuel)
    (hsense : i < stop →
      hasSense cmp size mem (cell size data i) (cell size data (i + 1)) = sense)
    (htail : Run cmp size mem links data stop n) :
    Chained cmp size n links data mem
      (setupLoop cmp size data links n (cell size data stop) fuel (cell size data i)
        (cell size links i) sense mem) i := by
  have hend : ∀ {m : Mem}, Run cmp size m links data stop n →
      Chained cmp size n links data m m stop := fun hrun =>
    ⟨⟨0, stop, Runs.nil, hrun, hsn⟩, Stably.refl _, Change.refl⟩
  induction fuel generalizing i sense mem with
  | zero =>
    obtain rfl : i = stop := by omega
    exact hend htail
  | succ fuel ih =>
    rw [setupLoop, cell_two]
    by_cases hlt : cell size data i < cell size data stop
    · rw [if_pos hlt]
      rw [cell_lt_iff hp.pos] at hlt
      have hfirst : AllSense cmp size mem data i (i + 2) sense := fun e h₁ h₂ he => by
        obtain rfl : e = i := by omega
        exact hsense hlt
      obtain ⟨j, heq, hkj, hjs, hj, ha, hnext⟩ := findPairs_spec hp.pos n 2
        (by omega) (by omega) hstop (by omega) hfirst
      rw [heq]
      dsimp only
      have hjn : j ≤ n := by omega
      have hsense' : ∀ {m : Mem}, Same mem m (cell size data j) (cell size data n) → j < stop →
          hasSense cmp size m (cell size data j) (cell size data (j + 1)) = !sense :=
        fun hs hjs => by
          rw [hasSense_congr hs (Nat.le_refl j) (by omega)]
          exact Bool.eq_not.2 (hnext hjs)
      have htail' : ∀ {m : Mem}, Change size links data i j mem m →
          Run cmp size m links data stop n := fun hc =>
        htail.congr (hc.same_links hp hjn (Nat.le_refl n) (Or.inr hjs))
          (hc.same_data hp hjn (Nat.le_refl n) (Or.inr hjs))
      by_cases hshort : 2 + (j - (i + 2)) < threshold
      · rw [if_pos hshort]
        obtain ⟨mem₁, heq₁, hgroup⟩ := pairwise_spec h hp halign n (by omega) hi hj hjn
          (by omega) ha
        rw [heq₁]
        exact hgroup.chain (ih hjs hj (by omega) (hsense' (hgroup.change.same_data hp hjn
          (Nat.le_refl n) (Or.inr (Nat.le_refl j)))) (htail' hgroup.change)) hp
      · rw [if_neg hshort]
        have hmono : Mono cmp sense (elts size mem data i (i + 2 - i)) := by
          rw [Nat.add_sub_cancel_left]
          exact mono_pair (hsense hlt)
        obtain ⟨i', mem₁, heq₁, hi', heven, hgroup, hmono'⟩ := natural_spec h hp halign n
          (Nat.le_refl (i + 2)) hkj hi (by omega) hj hjn (by omega)
          (ha.mono (Nat.le_add_right i 2)) hmono
        rw [heq₁]
        dsimp only
        obtain ⟨hsorted, hstably, hwithin⟩ := settle_spec h hp.pos hi' hmono' rfl
        rw [cell_pred (by omega)] at hsorted hstably hwithin ⊢
        generalize hmem : (if sense then reverse size (cell size data j) (cell size data i')
          (cell size data (j - 1)) mem₁ else mem₁) = mem₂ at *
        have hplace := pair_place (l := links) hp.two halign heven hi'
        rw [cell_other]
        by_cases hcut : cell size data j < cell size data stop ∨
            0 < cmp (elt size mem₂ (cell size data (j - 1))) (elt size mem₂ (cell size data j))
        · rw [if_pos hcut]
          -- the last natural run ends here
          have hrun := run_of_link hp hi' hjn hplace hsorted
          have hchange : Change size links data i' j mem₁
              (setLink mem₂ (cell size links i') (cell size links j)) :=
            hwithin.change.trans (setLink_change hplace)
          have hlast : Grouped cmp size links data mem₁
              (setLink mem₂ (cell size links i') (cell size links j)) i' j := by
            refine ⟨⟨1, Runs.cons hrun Runs.nil⟩, ?_, hchange⟩
            rwa [elts_data (setLink_data hp hplace hjn hjn) (by omega)]
          have hall := hgroup.trans hlast hp hjn
          exact hall.chain (ih hjs hj (by omega) (hsense' (hall.change.same_data hp hjn
            (Nat.le_refl n) (Or.inr (Nat.le_refl j)))) (htail' hall.change)) hp
        · rw [if_neg hcut]
          -- the last natural run goes on in the elements that were sorted first
          obtain ⟨hge, hle⟩ := not_or.1 hcut
          rw [cell_lt_iff hp.pos] at hge
          obtain rfl : j = stop := by omega
          have hstopn : j < n := by omega
          have hplace' : eval (cell size links i') + 4 ≤ cell size links n :=
            hplace.trans (cell_le hjn)
          have hdata : Same mem₁ mem₂ (cell size data j) (cell size data n) :=
            hwithin.same_behind (Nat.le_refl _)
          have htail₁ := (htail' (hgroup.change.mono (Nat.le_refl i) (by omega))).sorted
          rw [← elts_data hdata hjn] at htail₁
          have hjoin := sorted_join h (by omega) hstopn hsorted htail₁ (Int.not_lt.1 hle)
          have hrun := run_of_link hp (by omega) (Nat.le_refl n) hplace' hjoin
          have hlast : Chained cmp size n links data mem₁
              (setLink mem₂ (cell size links i') (cell size links n)) i' := by
            refine ⟨⟨0, i', Runs.nil, hrun, by omega⟩, ?_,
              (hwithin.change.mono (Nat.le_refl _) hjn).trans (setLink_change hplace')⟩
            have hsplit : ∀ m : Mem, elts size m data i' (n - i') =
                elts size m data i' (j - i') ++ elts size m data j (n - j) := fun m =>
              elts_split (by omega) hjn
            rw [elts_data (setLink_data hp hplace' (Nat.le_refl n) (Nat.le_refl n)) (by omega),
              hsplit mem₂, hsplit mem₁, elts_data hdata hjn]
            exact hstably.append (Stably.refl _)
          have hstops : ∀ {m : Mem} {f p : ℕ} {b : Bool}, setupLoop cmp size data links n
              (cell size data j) f (cell size data j) p b m = m := fun {m f p b} => by
            cases f with
            | zero => rfl
            | succ f => rw [setupLoop, if_neg (Nat.lt_irrefl _)]
          rw [hstops]
          exact hgroup.chain hlast hp
    · rw [if_neg hlt]
      rw [cell_lt_iff hp.pos] at hlt
      obtain rfl : i = stop := by omega
      exact hend htail

end Pass

theorem cell_cell {b : ℕ} : cell size (cell size data b) k = cell size data (b + k) := by
  rw [cell, cell_add]

theorem elts_cell {b len : ℕ} :
    elts size mem (cell size data b) 0 len = elts size mem data b len := by
  refine List.ext_getElem (by rw [length_elts, length_elts]) fun x h₁ h₂ => ?_
  rw [getElem_elts, getElem_elts, cell_cell, Nat.zero_add]

theorem Within.of_cell {b len : ℕ} (hw : Within size (cell size data b) 0 len mem mem') :
    Within size data b (b + len) mem mem' := fun x hx => hw x (by
  rwa [cell_cell, cell_cell, Nat.add_zero])

theorem setup_spec (mem : Mem) (h : Comparison cmp) (hp : Places size n links data)
    (halign : links % 4 = 0) (hn : 5 < n) :
    Chained cmp size n links data mem (setup cmp size data links n mem) 0 := by
  obtain ⟨stop, hstop⟩ : ∃ stop, stop = n - (4 + n % 2) := ⟨_, rfl⟩
  have hlen : n - stop = 4 + n % 2 := by omega
  have hsn : stop ≤ n := by omega
  have hlast : data + size * (n - (4 + n % 2)) = cell size data stop := by
    rw [Nat.mul_comm, ← hstop, cell]
  have hcell : data + (n - (4 + n % 2)) * size = cell size data stop := by
    rw [← hstop, cell]
  have hscratch : links + (cell size data stop - data) = cell size links stop := by
    rw [cell, cell, Nat.add_sub_cancel_left]
  obtain ⟨hsorted, hstably, hwithin⟩ :=
    insertionsort_spec (a := cell size data stop) (n := 4 + n % 2) h mem hp.pos (by omega)
  rw [setup, if_neg (by omega)]
  dsimp only
  rw [hlast, hcell, hscratch]
  generalize insertionsort cmp size (cell size data stop) (4 + n % 2) mem = mem₁ at *
  rw [elts_cell, ← hlen] at hsorted
  rw [elts_cell, elts_cell, ← hlen] at hstably
  replace hwithin := hwithin.of_cell
  rw [show stop + (4 + n % 2) = n by omega] at hwithin
  have hplace := pair_place (i := stop) (j := n) hp.two halign (by omega) (by omega)
  have htail : Run cmp size (setLink mem₁ (cell size links stop) (cell size links n)) links data
      stop n := run_of_link hp (by omega) (Nat.le_refl n) hplace hsorted
  have hloop := setupLoop_spec (i := 0) h hp halign n (Nat.zero_le stop) rfl
    (by omega) (by omega) (by omega) (fun _ => rfl) htail
  rw [cell_zero, cell_zero, cell_succ, cell_zero] at hloop
  have hwhole : Stably cmp (elts size (setLink mem₁ (cell size links stop) (cell size links n)) data
      0 (n - 0)) (elts size mem data 0 (n - 0)) := by
    rw [elts_data (setLink_data hp hplace (Nat.le_refl n) (Nat.le_refl n)) (Nat.zero_le n)]
    exact hwithin.stably hsn (Nat.le_refl n) hstably
  have hchange : Change size links data 0 n mem
      (setLink mem₁ (cell size links stop) (cell size links n)) :=
    (hwithin.change.mono (Nat.zero_le _) (Nat.le_refl n)).trans
      ((setLink_change hplace).mono (Nat.zero_le _) (Nat.le_refl n))
  exact ⟨hloop.threaded, hloop.stably.trans hwhole, hchange.trans hloop.change⟩

end Bsdi.Mergesort
