import Bsdi.Mergesort.Insertion

/-!
# Runs

The links in one array delimit sorted runs of the elements in the other one.
-/

namespace Bsdi.Mergesort

open Bsdi.Lib

variable {cmp : Elem → Elem → ℤ} {size n i j k r : ℕ} {mem mem' : Mem} {links data : ℕ}

/-- The two arrays lie apart, and a link can hold their addresses. -/
structure Places (size n links data : ℕ) : Prop where
  two : 2 ≤ size
  apart : cell size data n ≤ links ∨ cell size links n ≤ data
  bound : cell size links n < 2 ^ 32
  bound_data : cell size data n < 2 ^ 32

theorem Places.symm (h : Places size n links data) : Places size n data links :=
  ⟨h.two, h.apart.symm, h.bound_data, h.bound⟩

theorem Places.pos (h : Places size n links data) : 0 < size := Nat.lt_of_lt_of_le Nat.two_pos h.two

theorem Places.parts (h : Places size n links data) (i i' : ℕ) {j' : ℕ} (hj : j ≤ n)
    (hj' : j' ≤ n) :
    cell size data j ≤ cell size links i' ∨ cell size links j' ≤ cell size data i := by
  have h₁ : cell size data j ≤ cell size data n := cell_le hj
  have h₂ : cell size links j' ≤ cell size links n := cell_le hj'
  have h₃ : links ≤ cell size links i' := Nat.le_add_right _ _
  have h₄ : data ≤ cell size data i := Nat.le_add_right _ _
  have := h.apart
  omega

theorem Places.lt (h : Places size n links data) (hj : j ≤ n) : cell size links j < 2 ^ 32 :=
  (cell_le hj).trans_lt h.bound

theorem le_last (h : Comparison cmp) (hij : i < j) (hs : Sorted cmp (elts size mem data i (j - i)))
    {x : Elem} (hx : x ∈ elts size mem data i (j - i)) :
    cmp x (elt size mem (cell size data (j - 1))) ≤ 0 := by
  have hlast : elts size mem data i (j - i) =
      elts size mem data i (j - 1 - i) ++ [elt size mem (cell size data (j - 1))] := by
    rw [show j - i = j - 1 - i + 1 by omega, elts_succ, show i + (j - 1 - i) = j - 1 by omega]
  rw [hlast] at hs hx
  rcases List.mem_append.1 hx with hx | hx
  · exact (sorted_append.1 hs).2.2 x hx _ (List.mem_singleton_self _)
  · rw [List.mem_singleton.1 hx]
    exact h.le_self _

theorem first_le (h : Comparison cmp) (hij : i < j) (hs : Sorted cmp (elts size mem data i (j - i)))
    {x : Elem} (hx : x ∈ elts size mem data i (j - i)) :
    cmp (elt size mem (cell size data i)) x ≤ 0 := by
  have hfirst : elts size mem data i (j - i) =
      elt size mem (cell size data i) :: elts size mem data (i + 1) (j - i - 1) := by
    rw [show j - i = j - i - 1 + 1 by omega, elts_cons, Nat.add_sub_cancel]
  rw [hfirst] at hs hx
  rcases List.mem_cons.1 hx with hx | hx
  · rw [hx]
    exact h.le_self _
  · exact (List.pairwise_cons.1 hs).1 x hx

theorem elts_data (h : Same mem mem' (cell size data i) (cell size data j)) (hij : i ≤ j) :
    elts size mem' data i (j - i) = elts size mem data i (j - i) :=
  elts_congr (by rwa [Nat.add_sub_cancel' hij])

theorem elts_split (hij : i ≤ j) (hjk : j ≤ k) :
    elts size mem data i (k - i) = elts size mem data i (j - i) ++ elts size mem data j (k - j) :=
      by
  have : elts size mem data i (j - i + (k - j)) =
      elts size mem data i (j - i) ++ elts size mem data (i + (j - i)) (k - j) := elts_append
  rwa [Nat.add_sub_cancel' hij, show j - i + (k - j) = k - i by omega] at this

/-- Elements `i` to `j` are a run: they are sorted and their link, within them, goes to `j`. -/
structure Run (cmp : Elem → Elem → ℤ) (size : ℕ) (mem : Mem) (links data i j : ℕ) : Prop where
  two : i + 2 ≤ j
  place : eval (cell size links i) + 4 ≤ cell size links j
  link : link mem (cell size links i) = cell size links j
  sorted : Sorted cmp (elts size mem data i (j - i))

inductive Runs (cmp : Elem → Elem → ℤ) (size : ℕ) (mem : Mem) (links data : ℕ) :
    ℕ → ℕ → ℕ → Prop
  | nil {i : ℕ} : Runs cmp size mem links data 0 i i
  | cons {r i j k : ℕ} (first : Run cmp size mem links data i j)
      (rest : Runs cmp size mem links data r j k) : Runs cmp size mem links data (r + 1) i k

theorem Run.congr (h : Run cmp size mem links data i j)
    (hlinks : Same mem mem' (cell size links i) (cell size links j))
    (hdata : Same mem mem' (cell size data i) (cell size data j)) :
    Run cmp size mem' links data i j := by
  have hle := h.two
  refine ⟨h.two, h.place, ?_, ?_⟩
  · rw [link_congr fun x h₁ h₂ => hlinks x ((le_eval _).trans h₁) (h₂.trans_le h.place)]
    exact h.link
  · rw [elts_congr (by rwa [Nat.add_sub_cancel' (by omega)])]
    exact h.sorted

theorem Runs.le (h : Runs cmp size mem links data r i j) : i ≤ j := by
  induction h with
  | nil => exact Nat.le_refl _
  | cons first _ ih => exact (Nat.le_add_right _ 2).trans (first.two.trans ih)

theorem Runs.congr (h : Runs cmp size mem links data r i j)
    (hlinks : Same mem mem' (cell size links i) (cell size links j))
    (hdata : Same mem mem' (cell size data i) (cell size data j)) :
    Runs cmp size mem' links data r i j := by
  induction h with
  | nil => exact Runs.nil
  | cons first rest ih =>
    have hle := rest.le
    have hle' : _ ≤ _ := (Nat.le_add_right _ 2).trans first.two
    refine Runs.cons (first.congr (fun x h₁ h₂ => hlinks x h₁ ?_) fun x h₁ h₂ => hdata x h₁ ?_)
      (ih (fun x h₁ h₂ => hlinks x ?_ h₂) fun x h₁ h₂ => hdata x ?_ h₂)
    · exact h₂.trans_le (cell_le hle)
    · exact h₂.trans_le (cell_le hle)
    · exact (cell_le hle').trans h₁
    · exact (cell_le hle').trans h₁

theorem Runs.snoc (h : Runs cmp size mem links data r i j) (last : Run cmp size mem links data j k)
    :
    Runs cmp size mem links data (r + 1) i k := by
  induction h with
  | nil => exact Runs.cons last Runs.nil
  | cons first _ ih => exact Runs.cons first (ih last)

/-- Runs up to the end, the last one of four elements or more. -/
structure Threaded (cmp : Elem → Elem → ℤ) (size : ℕ) (mem : Mem) (links data r i n : ℕ) : Prop
  where
  split : ∃ m, Runs cmp size mem links data r i m ∧ Run cmp size mem links data m n ∧ m + 4 ≤ n

theorem Runs.append (h : Runs cmp size mem links data r i j) {r' : ℕ}
    (h' : Runs cmp size mem links data r' j k) : Runs cmp size mem links data (r + r') i k := by
  induction h with
  | nil => rwa [Nat.zero_add]
  | cons first _ ih =>
    rw [Nat.add_right_comm]
    exact Runs.cons first (ih h')

theorem Runs.two_mul_le (h : Runs cmp size mem links data r i j) : i + 2 * r ≤ j := by
  induction h with
  | nil => exact Nat.le_refl _
  | cons first _ ih =>
    have := first.two
    omega

theorem pair_place (hsize : 2 ≤ size) {l : ℕ} (halign : l % 4 = 0) (hi : i % 2 = 0) (hj : i + 2 ≤ j)
    :
    eval (cell size l i) + 4 ≤ cell size l j := by
  obtain ⟨c, rfl⟩ : ∃ c, i = 2 * c := ⟨i / 2, by omega⟩
  have hcell : cell size l (2 * c + 2) ≤ cell size l j := cell_le hj
  have hsplit : cell size l (2 * c + 2) = cell size l (2 * c) + 2 * size := cell_add
  have heven : cell size l (2 * c) = l + 2 * (c * size) := by
    rw [cell, Nat.mul_assoc]
  rcases Nat.lt_or_ge 2 size with hlarge | hsmall
  · have : eval (cell size l (2 * c)) ≤ cell size l (2 * c) + 2 := by
      rw [heven]
      simp only [eval, psize]
      omega
    omega
  · obtain rfl : size = 2 := Nat.le_antisymm hsmall hsize
    have : eval (cell 2 l (2 * c)) = cell 2 l (2 * c) := by
      rw [heven]
      simp only [eval, psize]
      omega
    omega

end Bsdi.Mergesort
