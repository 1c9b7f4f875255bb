import Bsdi.Lib.Heap

/-!
# Parts of an array

An array is a function of its places. These are its values from one place up to another, the order
of a part, and the insertion of an element by exchanges of neighbours.
-/

namespace Bsdi.Lib

open Function

variable {α : Type*} {c : α → α → ℤ} {A B : ℕ → α} {i j k l m : ℕ} {x : α}

/-- The values at the places from `i` up to `j`. -/
def vals (A : ℕ → α) (i j : ℕ) : List α := (List.range' i (j - i)).map A

theorem length_vals : (vals A i j).length = j - i := by
  rw [vals, List.length_map, List.length_range']

theorem vals_eq_nil (h : j ≤ i) : vals A i j = [] := by
  rw [vals, Nat.sub_eq_zero_of_le h]
  rfl

theorem vals_append (hij : i ≤ j) (hjk : j ≤ k) : vals A i k = vals A i j ++ vals A j k := by
  have h := @List.range'_append_1 i (j - i) (k - j)
  have hlen : j - i + (k - j) = k - i := by omega
  rw [Nat.add_sub_cancel' hij, hlen] at h
  rw [vals, ← h, List.map_append]
  rfl

theorem vals_one : vals A i (i + 1) = [A i] := by
  rw [vals, Nat.add_sub_cancel_left]
  rfl

theorem vals_cons (hij : i < j) : vals A i j = A i :: vals A (i + 1) j := by
  rw [vals_append (Nat.le_succ i) hij, vals_one]
  rfl

theorem vals_succ (hij : i ≤ j) : vals A i (j + 1) = vals A i j ++ [A j] := by
  rw [vals_append hij (Nat.le_succ j), vals_one]

theorem vals_congr (h : ∀ k, i ≤ k → k < j → A k = B k) : vals A i j = vals B i j := by
  refine List.map_congr_left fun k hk => ?_
  obtain ⟨hik, hkj⟩ := List.mem_range'_1.1 hk
  exact h k hik (by omega)

theorem mem_vals : x ∈ vals A i j ↔ ∃ k, i ≤ k ∧ k < j ∧ A k = x := by
  rw [vals, List.mem_map]
  constructor
  · rintro ⟨k, hk, heq⟩
    obtain ⟨hik, hkj⟩ := List.mem_range'_1.1 hk
    exact ⟨k, hik, by omega, heq⟩
  · rintro ⟨k, hik, hkj, heq⟩
    exact ⟨k, List.mem_range'_1.2 ⟨hik, by omega⟩, heq⟩

theorem mem_vals_self (hik : i ≤ k) (hkj : k < j) : A k ∈ vals A i j :=
  mem_vals.2 ⟨k, hik, hkj, rfl⟩

theorem vals_swap (hik : i ≤ k) (hkj : k < j) (hil : i ≤ l) (hlj : l < j) :
    (vals (A ∘ Equiv.swap k l) i j).Perm (vals A i j) :=
  perm_map_swap List.nodup_range' (List.mem_range'_1.2 ⟨hik, by omega⟩)
    (List.mem_range'_1.2 ⟨hil, by omega⟩)

theorem swap_left (A : ℕ → α) (k l : ℕ) : (A ∘ Equiv.swap k l) k = A l :=
  congrArg A (Equiv.swap_apply_left k l)

theorem swap_right (A : ℕ → α) (k l : ℕ) : (A ∘ Equiv.swap k l) l = A k :=
  congrArg A (Equiv.swap_apply_right k l)

theorem swap_other (A : ℕ → α) {y : ℕ} (hk : y ≠ k) (hl : y ≠ l) :
    (A ∘ Equiv.swap k l) y = A y :=
  congrArg A (Equiv.swap_apply_of_ne_of_ne hk hl)

/-- The elements from `i` up to `j` are in order. -/
def SortedOn (c : α → α → ℤ) (A : ℕ → α) (i j : ℕ) : Prop :=
  ∀ k l, i ≤ k → k < l → l < j → c (A k) (A l) ≤ 0

theorem sortedOn_one (h : j ≤ i + 1) : SortedOn c A i j := fun k l hk hkl hl => by omega

theorem SortedOn.congr (h : SortedOn c A i j) (hB : ∀ k, i ≤ k → k < j → B k = A k) :
    SortedOn c B i j := fun k l hk hkl hl => by
  rw [hB k hk (hkl.trans hl), hB l (hk.trans hkl.le) hl]
  exact h k l hk hkl hl

theorem SortedOn.sorted (h : SortedOn c A i j) : Sorted c (vals A i j) := by
  have hlt := @List.pairwise_lt_range' i (j - i) 1 Nat.one_pos
  refine List.pairwise_map.2 (hlt.imp_of_mem fun hk hl hkl => ?_)
  obtain ⟨hik, -⟩ := List.mem_range'_1.1 hk
  obtain ⟨-, hlj⟩ := List.mem_range'_1.1 hl
  exact h _ _ hik hkl (by omega)

/-- All is in order but for the element at `l`, which is not greater than those behind it. -/
structure Inserting (c : α → α → ℤ) (A : ℕ → α) (i l j : ℕ) : Prop where
  others : ∀ x y, i ≤ x → x < y → y < j → x ≠ l → y ≠ l → c (A x) (A y) ≤ 0
  behind : ∀ y, l < y → y < j → c (A l) (A y) ≤ 0

theorem SortedOn.inserting (h : SortedOn c A i l) : Inserting c A i l (l + 1) :=
  ⟨fun x y hx hxy hy _ hyl => h x y hx hxy (by omega), fun y hly hy => by omega⟩

theorem Inserting.first (h : Inserting c A i i j) : SortedOn c A i j := fun x y hx hxy hy => by
  by_cases hxi : x = i
  · exact hxi ▸ h.behind y (hxi ▸ hxy) hy
  · exact h.others x y hx hxy hy hxi (by omega)

/-- The element has its place when it is not less than the one before it. -/
theorem Inserting.stop (hc : Comparison c) (h : Inserting c A i (l + 1) j)
    (hle : c (A l) (A (l + 1)) ≤ 0) : SortedOn c A i j := by
  intro x y hx hxy hy
  by_cases hxl : x = l + 1
  · exact hxl ▸ h.behind y (hxl ▸ hxy) hy
  by_cases hyl : y = l + 1
  · subst hyl
    by_cases hlast : x = l
    · exact hlast ▸ hle
    · exact hc.trans _ _ _ (h.others x l hx (by omega) (by omega) hxl (by omega)) hle
  · exact h.others x y hx hxy hy hxl hyl

theorem Inserting.swap (hc : Comparison c) (h : Inserting c A i (l + 1) j) (hil : i ≤ l)
    (hlj : l + 1 < j) (hlt : 0 < c (A l) (A (l + 1))) :
    Inserting c (A ∘ Equiv.swap (l + 1) l) i l j := by
  refine ⟨fun x y hx hxy hy hxl hyl => ?_, fun y hy hyj => ?_⟩
  · by_cases hx₁ : x = l + 1
    · rw [hx₁, swap_left, swap_other A (by omega) hyl]
      exact h.others l y hil (by omega) hy (by omega) (by omega)
    by_cases hy₁ : y = l + 1
    · rw [hy₁, swap_left, swap_other A hx₁ hxl]
      exact h.others x l hx (by omega) (by omega) hx₁ (by omega)
    · rw [swap_other A hx₁ hxl, swap_other A hy₁ hyl]
      exact h.others x y hx hxy hy hx₁ hy₁
  · rw [swap_right]
    by_cases hy₁ : y = l + 1
    · rw [hy₁, swap_left]
      exact hc.le_of_lt hlt
    · rw [swap_other A hy₁ (by omega)]
      exact h.behind y (by omega) hyj

theorem stably_swap (hc : Comparison c) (hil : i ≤ l) (hlj : l + 1 < j)
    (hne : c (A l) (A (l + 1)) ≠ 0) :
    Stably c (vals (A ∘ Equiv.swap (l + 1) l) i j) (vals A i j) := by
  have hsplit : ∀ B : ℕ → α, vals B i j = vals B i l ++ ([B l] ++ [B (l + 1)]) ++ vals B (l + 2) j
    := by
    intro B
    have hpair : vals B l (l + 2) = [B l] ++ [B (l + 1)] := by
      rw [vals_succ (Nat.le_succ l), vals_one]
    rw [vals_append (show i ≤ l + 2 by omega) hlj, vals_append hil (show l ≤ l + 2 by omega), hpair]
  have hbefore : vals (A ∘ Equiv.swap (l + 1) l) i l = vals A i l :=
    vals_congr fun k _ hk => swap_other A (by omega) (by omega)
  have hbehind : vals (A ∘ Equiv.swap (l + 1) l) (l + 2) j = vals A (l + 2) j :=
    vals_congr fun k hk _ => swap_other A (by omega) (by omega)
  rw [hsplit, hsplit A, hbefore, hbehind, swap_left, swap_right]
  refine ((Stably.refl _).append (stably_comm hc fun x hx y hy => ?_)).append (Stably.refl _)
  rw [List.mem_singleton.1 hx, List.mem_singleton.1 hy]
  exact hne

/-- A list is dealt stably to the piles of a key that differs only where the elements do. -/
theorem stably_piles {key : α → ℕ} {l : List α} (hc : Comparison c) {cs : List ℕ} (hcs : cs.Nodup)
    (hl : ∀ x ∈ l, key x ∈ cs) (hne : ∀ x ∈ l, ∀ y ∈ l, key x ≠ key y → c x y ≠ 0) :
    Stably c (cs.flatMap fun n => l.filter fun x => key x = n) l := by
  induction l with
  | nil =>
    have hnil : (cs.flatMap fun n => ([] : List α).filter fun x => key x = n) = [] :=
      List.flatMap_eq_nil_iff.2 fun _ _ => rfl
    rw [hnil]
    exact Stably.refl []
  | cons x l ih =>
    have ih := ih (fun y hy => hl y (List.mem_cons_of_mem _ hy)) fun y hy z hz =>
      hne y (List.mem_cons_of_mem _ hy) z (List.mem_cons_of_mem _ hz)
    obtain ⟨cs₁, cs₂, rfl⟩ := List.append_of_mem (hl x List.mem_cons_self)
    have hother : ∀ n, n ≠ key x → ((x :: l).filter fun y => key y = n) =
        l.filter fun y => key y = n := fun n hn =>
      List.filter_cons_of_neg (by rw [decide_eq_true_eq]; exact hn.symm)
    have hown : ((x :: l).filter fun y => key y = key x) = x :: l.filter fun y => key y = key x :=
      List.filter_cons_of_pos (decide_eq_true rfl)
    obtain ⟨-, hcs₂, hdisj⟩ := List.nodup_append.1 hcs
    have hfirst : (cs₁.flatMap fun n => (x :: l).filter fun y => key y = n) =
        cs₁.flatMap fun n => l.filter fun y => key y = n :=
      List.flatMap_congr fun n hn => hother n (hdisj n hn _ List.mem_cons_self)
    have hlast : (cs₂.flatMap fun n => (x :: l).filter fun y => key y = n) =
        cs₂.flatMap fun n => l.filter fun y => key y = n :=
      List.flatMap_congr fun n hn => hother n fun h =>
        (List.nodup_cons.1 hcs₂).1 (h ▸ hn)
    -- the element passes the piles before its own
    have hpass : Stably c ((cs₁.flatMap fun n => l.filter fun y => key y = n) ++ [x])
        ([x] ++ cs₁.flatMap fun n => l.filter fun y => key y = n) := by
      refine stably_comm hc fun y hy z hz => ?_
      obtain ⟨n, hn, hz⟩ := List.mem_flatMap.1 hz
      obtain ⟨hzl, hkey⟩ := List.mem_filter.1 hz
      rw [List.mem_singleton.1 hy]
      refine hne x List.mem_cons_self z (List.mem_cons_of_mem _ hzl) fun h => ?_
      exact hdisj n hn _ List.mem_cons_self ((of_decide_eq_true hkey).symm.trans h.symm)
    rw [List.flatMap_append, List.flatMap_cons] at ih ⊢
    rw [hfirst, hlast, hown]
    have h := (hpass.append (Stably.refl _)).trans
      (List.append_assoc [x] _ _ ▸ (Stably.refl [x]).append ih)
    rwa [List.append_assoc, List.singleton_append] at h

end Bsdi.Lib
