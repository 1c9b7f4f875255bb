import Mathlib.Data.List.Perm.Basic
import Mathlib.Data.List.Pairwise
import Mathlib.Algebra.Order.Group.Int

/-!
# Stable rearrangements

Lists that are sorted by a three-way comparison, and rearrangements that keep equal elements in
order: for each element, the elements that are equal to it form the same list before and after.
-/

namespace Bsdi.Lib

variable {α : Type*} {cmp : α → α → ℤ}

/-- A three-way comparison by a total preorder. -/
structure Comparison (cmp : α → α → ℤ) : Prop where
  sign : ∀ x y, cmp x y ≤ 0 ↔ 0 ≤ cmp y x
  trans : ∀ x y z, cmp x y ≤ 0 → cmp y z ≤ 0 → cmp x z ≤ 0

namespace Comparison

variable (h : Comparison cmp) {x y z : α}

include h

theorem le_self (x : α) : cmp x x ≤ 0 := by
  rcases Int.le_total (cmp x x) 0 with hle | hge
  · exact hle
  · exact (h.sign x x).2 hge

theorem pos_iff : 0 < cmp x y ↔ cmp y x < 0 := by
  rw [← Int.not_le, ← Int.not_le, h.sign]

theorem le_of_lt (hlt : 0 < cmp x y) : cmp y x ≤ 0 := Int.le_of_lt (h.pos_iff.1 hlt)

theorem pos_of_le_of_pos (hle : cmp y x ≤ 0) (hlt : 0 < cmp y z) : 0 < cmp x z := by
  rw [← Int.not_le] at hlt ⊢
  exact fun hxz => hlt (h.trans y x z hle hxz)

theorem pos_of_pos_of_le (hlt : 0 < cmp x y) (hle : cmp z y ≤ 0) : 0 < cmp x z := by
  rw [← Int.not_le] at hlt ⊢
  exact fun hxz => hlt (h.trans x z y hxz hle)

theorem eq_of_eq (hx : cmp z x = 0) (hy : cmp z y = 0) : cmp x y = 0 := by
  have hxz : cmp x z ≤ 0 := (h.sign x z).2 hx.ge
  have hyz : cmp y z ≤ 0 := (h.sign y z).2 hy.ge
  refine Int.le_antisymm (h.trans x z y hxz hy.le) ((h.sign y x).1 (h.trans y z x hyz hx.le))

end Comparison

def Sorted (cmp : α → α → ℤ) (l : List α) : Prop := l.Pairwise fun x y => cmp x y ≤ 0

/-- The elements that compare equal to `x`. -/
def equals (cmp : α → α → ℤ) (x : α) (l : List α) : List α := l.filter fun y => cmp x y = 0

theorem equals_append (x : α) (l m : List α) :
    equals cmp x (l ++ m) = equals cmp x l ++ equals cmp x m := List.filter_append _ _

/-- A permutation that keeps the order of equal elements. -/
structure Stably (cmp : α → α → ℤ) (l' l : List α) : Prop where
  perm : l'.Perm l
  order : ∀ x, equals cmp x l' = equals cmp x l

namespace Stably

variable {l l' m m' n : List α}

protected theorem refl (l : List α) : Stably cmp l l := ⟨List.Perm.refl l, fun _ => rfl⟩

protected theorem trans (h : Stably cmp n m) (h' : Stably cmp m l) : Stably cmp n l :=
  ⟨h.perm.trans h'.perm, fun x => (h.order x).trans (h'.order x)⟩

protected theorem append (h : Stably cmp l' l) (h' : Stably cmp m' m) :
    Stably cmp (l' ++ m') (l ++ m) :=
  ⟨h.perm.append h'.perm, fun x => by rw [equals_append, equals_append, h.order, h'.order]⟩

end Stably

section

variable (h : Comparison cmp) {l m : List α}

include h

/-- Two parts may change places if no element of one is equal to one of the other. -/
theorem stably_comm (hne : ∀ x ∈ l, ∀ y ∈ m, cmp x y ≠ 0) : Stably cmp (m ++ l) (l ++ m) := by
  refine ⟨List.perm_append_comm, fun z => ?_⟩
  rw [equals_append, equals_append]
  by_cases hl : equals cmp z l = []
  · rw [hl, List.nil_append, List.append_nil]
  · have hm : equals cmp z m = [] := by
      obtain ⟨x, hx⟩ := List.exists_mem_of_ne_nil _ hl
      obtain ⟨hxl, hzx⟩ := List.mem_filter.1 hx
      refine List.filter_eq_nil_iff.2 fun y hy hzy => ?_
      exact hne x hxl y hy (h.eq_of_eq (of_decide_eq_true hzx) (of_decide_eq_true hzy))
    rw [hm, List.nil_append, List.append_nil]

/-- A list that descends strictly may be reversed. -/
theorem stably_reverse (hdesc : l.Pairwise fun x y => 0 < cmp x y) :
    Stably cmp l.reverse l := by
  induction l with
  | nil => exact Stably.refl []
  | cons a l ih =>
    obtain ⟨ha, hl⟩ := List.pairwise_cons.1 hdesc
    rw [List.reverse_cons]
    refine ((ih hl).append (Stably.refl [a])).trans (stably_comm (l := [a]) h fun x hx y hy => ?_)
    rw [List.mem_singleton.1 hx]
    exact (ha y hy).ne'

theorem sorted_reverse (hdesc : l.Pairwise fun x y => 0 < cmp x y) : Sorted cmp l.reverse :=
  List.pairwise_reverse.2 (hdesc.imp fun hlt => h.le_of_lt hlt)

/-- One round of a merge: `q` goes before the rest of the first run. -/
theorem stably_merge {out x rest : List α} {q : α} (hrest : ∀ a ∈ rest, 0 < cmp a q) :
    Stably cmp (out ++ x ++ [q] ++ rest ++ l) (out ++ (x ++ rest) ++ (q :: l)) := by
  have hcomm : Stably cmp ([q] ++ rest) (rest ++ [q]) := stably_comm h fun a ha y hy => by
    rw [List.mem_singleton.1 hy]
    exact (hrest a ha).ne'
  have := ((Stably.refl (out ++ x)).append hcomm).append (Stably.refl l)
  simpa only [List.append_assoc, List.singleton_append, List.cons_append, List.nil_append] using
    this

/-- The other round: elements of the second run go before `q` and its run. -/
theorem stably_merge_right {out x rest : List α} {q : α}
    (hx : ∀ b ∈ x, ∀ a ∈ q :: rest, cmp a b ≠ 0) :
    Stably cmp (out ++ x ++ [q] ++ rest ++ l) (out ++ (q :: rest) ++ (x ++ l)) := by
  have hcomm : Stably cmp (x ++ (q :: rest)) ((q :: rest) ++ x) :=
    stably_comm h fun a ha b hb => hx b hb a ha
  have := ((Stably.refl out).append hcomm).append (Stably.refl l)
  simpa only [List.append_assoc, List.singleton_append, List.cons_append, List.nil_append] using
    this

end

/-- A sorted list is sorted in its parts, and the first part is below the second. -/
theorem sorted_append {l m : List α} :
    Sorted cmp (l ++ m) ↔ Sorted cmp l ∧ Sorted cmp m ∧ ∀ x ∈ l, ∀ y ∈ m, cmp x y ≤ 0 :=
  List.pairwise_append

section

variable {out x rest l : List α} {q : α}

/-- A merge keeps the elements that it has passed and the rest of the one run in order. -/
theorem sorted_merge_rest (hs : Sorted cmp (out ++ (x ++ rest))) (hout : ∀ a ∈ out, cmp a q ≤ 0)
    (hx : ∀ a ∈ x, cmp a q ≤ 0) (hrest : ∀ a ∈ rest, cmp q a ≤ 0) :
    Sorted cmp (out ++ x ++ [q] ++ rest) := by
  rw [← List.append_assoc] at hs
  obtain ⟨hfirst, hlast, hcross⟩ := sorted_append.1 hs
  refine sorted_append.2 ⟨sorted_append.2 ⟨hfirst, List.pairwise_singleton _ _, ?_⟩, hlast, ?_⟩
  · intro a ha b hb
    rw [List.mem_singleton.1 hb]
    exact (List.mem_append.1 ha).elim (hout a) (hx a)
  · intro a ha b hb
    rcases List.mem_append.1 ha with ha | ha
    · exact hcross a ha b hb
    · rw [List.mem_singleton.1 ha]
      exact hrest b hb

/-- The same for the run whose first element goes behind `x`. -/
theorem sorted_merge_from (h : Comparison cmp) (hs : Sorted cmp (out ++ (x ++ rest)))
    (hq : Sorted cmp (out ++ q :: l)) (hx : ∀ a ∈ x, cmp a q ≤ 0) :
    Sorted cmp (out ++ x ++ [q] ++ l) := by
  rw [← List.append_assoc] at hs
  have hfirst := (sorted_append.1 hs).1
  obtain ⟨-, hlast, hout⟩ := sorted_append.1 hq
  rw [List.append_assoc (out ++ x), List.singleton_append]
  refine sorted_append.2 ⟨hfirst, hlast, fun a ha b hb => ?_⟩
  rcases List.mem_append.1 ha with ha | ha
  · exact hout a ha b hb
  · rcases List.mem_cons.1 hb with hb | hb
    · rw [hb]
      exact hx a ha
    · exact h.trans a q b (hx a ha) ((List.pairwise_cons.1 hlast).1 b hb)

end

end Bsdi.Lib
