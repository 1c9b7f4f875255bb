import Bsdi.Db.Btree.Shape

/-!
# How `bt_psplit` divides a page

When every slot of both halves gets an item, the halves are the items of the page in
order with the new one at its place. `bt_psplit` counts the bytes of the items but not
those of their index entries, so this is a condition on the page and the new item.
-/

namespace Bsdi.Db

open Bsdi.Lib

namespace Btree

/-- The two halves of a page with `items` after a split that leaves slot `skip` open and
stores `item` there. -/
def halves (c : Config) (items : List Item) (skip : Nat) (item : Item) :
    List (Option Item) × List (Option Item) :=
  let s := btPsplit c items skip item.nbytes
  if s.onLeft then (s.left.set s.skip (some item), s.right)
  else (s.left, s.right.set s.skip (some item))

/-- Both halves get a share of the items, no slot is left without one, and they fit. -/
structure SplitFits (c : Config) (items : List Item) (skip : Nat) (item : Item) : Prop where
  left_ne : (halves c items skip item).1 ≠ []
  right_ne : (halves c items skip item).2 ≠ []
  left_some : none ∉ (halves c items skip item).1
  right_some : none ∉ (halves c items skip item).2
  left_fits : Fits c (halves c items skip item).1
  right_fits : Fits c (halves c items skip item).2

/-- The outcomes of the loop that fills the left page: the open slot is on the right, it
is on the left, the loop ran out of items behind it, or `off` wrapped. -/
inductive ScanOutcome (skip top : Nat) (r : Nat × Nat) : Prop
  | right (off : r.1 + 1 = r.2) (skip : r.2 ≤ skip) (top : r.2 ≤ top)
  | left (off : r.1 = r.2) (skip : skip ≤ r.2) (top : r.2 ≤ top)
  | ranOut (off : r.1 = r.2 + 1) (top : r.2 = top) (skip : skip ≤ r.2)
  | wrapped (off : r.1 = indxMod - 1) (nxt : r.2 = 0) (skip : skip = 0)

private theorem scan_passed {full half skip ilen : Nat} {items : List Item} {nxt used big : Nat}
    (hskip : skip ≤ nxt) :
    ScanOutcome skip (nxt + items.length)
      (psplitScan full half skip ilen items (nxt + 1) nxt used big) := by
  induction items generalizing nxt used big with
  | nil => exact .ranOut rfl rfl hskip
  | cons item rest ih =>
    have hat : ¬ skip = nxt + 1 := by omega
    rw [List.length_cons, psplitScan]
    simp only [hat, false_and, if_false]
    split_ifs
    · exact .left rfl hskip (by simp only; omega)
    · exact .left rfl (by simp only; omega) (by simp only; omega)
    all_goals
      rw [Nat.add_comm rest.length 1, ← Nat.add_assoc]
      exact ih (by omega)

theorem scan_outcome {full half skip ilen : Nat} {items : List Item} {nxt used big : Nat}
    (hle : nxt ≤ skip) (hskip : skip ≤ nxt + items.length)
    (hmax : nxt + items.length < indxMod) :
    ScanOutcome skip (nxt + items.length)
      (psplitScan full half skip ilen items nxt nxt used big) := by
  induction items generalizing nxt used big with
  | nil => exact .left rfl hskip (Nat.le_refl _)
  | cons item rest ih =>
    rw [List.length_cons] at hskip hmax ⊢
    have hlen : nxt + (rest.length + 1) = nxt + 1 + rest.length := by omega
    rw [psplitScan]
    by_cases hat : skip = nxt
    · -- the slot left open, and the item behind it
      simp only [hat, true_and, if_true]
      split_ifs
      · rcases Nat.eq_zero_or_pos nxt with rfl | hpos
        · exact .wrapped rfl rfl rfl
        · have hdown : (nxt + indxMod - 1) % indxMod = nxt - 1 := by
            simp only [indxMod] at hmax ⊢
            omega
          exact .right (by simp only [hdown]; omega) (Nat.le_refl _) (by simp only; omega)
      · exact .left rfl (Nat.le_refl _) (by simp only; omega)
      · exact .left rfl (Nat.le_refl _) (by simp only; omega)
      · exact .left rfl (by simp only; omega) (by simp only; omega)
      all_goals
        rw [hlen]
        exact scan_passed (by omega)
    · have hnot : ¬ skip ≤ nxt := by omega
      simp only [hat, hnot, false_and, if_false]
      split_ifs
      · exact .right rfl (by simp only; omega) (by simp only; omega)
      all_goals
        rw [hlen]
        exact ih (by omega) (by omega) (by omega)

theorem psplitRight_zero {nxt : Nat} (hpos : 0 < nxt) (rest : List Item) :
    psplitRight 0 nxt rest = rest.map some := by
  induction rest generalizing nxt with
  | nil => simp [psplitRight, Nat.ne_of_lt hpos]
  | cons item rest ih => simp [psplitRight, Nat.ne_of_lt hpos, ih (Nat.succ_pos nxt)]

theorem psplitRight_eq {skip nxt : Nat} (rest : List Item) (hle : nxt ≤ skip)
    (hskip : skip ≤ nxt + rest.length) :
    psplitRight skip nxt rest = (rest.map some).insertIdx (skip - nxt) none := by
  induction rest generalizing nxt with
  | nil =>
    obtain rfl : skip = nxt := by simp at hskip; omega
    simp [psplitRight]
  | cons item rest ih =>
    rw [List.length_cons] at hskip
    rw [psplitRight]
    split_ifs with hat
    · subst hat
      rw [psplitRight_zero (Nat.succ_pos _)]
      simp
    · obtain ⟨m, hm⟩ : ∃ m, skip - nxt = m + 1 := ⟨skip - nxt - 1, by omega⟩
      rw [ih (by omega) (by omega), hm, List.map_cons, List.insertIdx_succ_cons]
      congr 2
      omega

theorem insertIdx_append_left {α : Type*} {x : α} (U V : List α) {i : Nat} (hi : i ≤ U.length) :
    (U ++ V).insertIdx i x = U.insertIdx i x ++ V := by
  induction U generalizing i with
  | nil =>
    obtain rfl : i = 0 := by simpa using hi
    simp
  | cons a U ih =>
    cases i with
    | zero => simp
    | succ i => simp [ih (Nat.le_of_succ_le_succ hi)]

theorem insertIdx_append_right {α : Type*} {x : α} (U V : List α) {i : Nat} (hi : U.length ≤ i) :
    (U ++ V).insertIdx i x = U ++ V.insertIdx (i - U.length) x := by
  induction U generalizing i with
  | nil => simp
  | cons a U ih =>
    cases i with
    | zero => simp at hi
    | succ i => simp [ih (Nat.le_of_succ_le_succ hi)]

theorem set_insertIdx {α : Type*} {x y : α} (U : List α) {i : Nat} :
    (U.insertIdx i x).set i y = U.insertIdx i y := by
  induction U generalizing i with
  | nil => cases i <;> simp
  | cons a U ih => cases i <;> simp [ih]

section

variable {items : List Item} {skip : Nat} {r : Nat × Nat}

theorem psplitAt_right (hlen : items.length + 2 < indxMod / indxSize) (hskip : skip ≤ items.length)
    (hoff : r.1 + 1 = r.2) (hle : r.2 ≤ skip) (htop : r.2 ≤ items.length) :
    psplitAt items skip r = ⟨(items.take r.2).map some,
      ((items.drop r.2).map some).insertIdx (skip - r.2) none, false, skip - r.2, r.2⟩ := by
  simp only [indxMod, indxSize] at hlen
  have hnot : ¬ skip ≤ r.1 := by omega
  have htake : ((items.take r.2).map some).length = r.2 := by simp [htop]
  have hcount : (r.1 + 1) % (indxMod / indxSize) = r.2 := by
    simp only [indxMod, indxSize]
    omega
  have hL : psplitLeft items r.1 r.2 skip = (items.take r.2).map some := by
    simp only [psplitLeft, hnot, if_false, hcount, htake, Nat.sub_self, List.replicate_zero,
      List.append_nil]
    exact List.take_of_length_le (by omega)
  have hR := psplitRight_eq (items.drop r.2) hle (by simp; omega)
  simp only [psplitAt, hnot, if_false, hL, hR]

theorem psplitAt_left (hlen : items.length + 2 < indxMod / indxSize) (hoff : r.1 = r.2)
    (hle : skip ≤ r.2) (htop : r.2 ≤ items.length) (hpos : 0 < r.2) :
    psplitAt items skip r = ⟨((items.take r.2).map some).insertIdx skip none,
      (items.drop r.2).map some, true, skip, r.2⟩ := by
  simp only [indxMod, indxSize] at hlen
  have hon : skip ≤ r.1 := by omega
  have htake : ((items.take r.2).map some).length = r.2 := by simp [htop]
  have hslots : (((items.take r.2).map some).insertIdx skip none).length = r.2 + 1 := by
    rw [List.length_insertIdx_of_le_length (by omega), htake]
  have hcount : (r.1 + 1) % (indxMod / indxSize) = r.2 + 1 := by
    simp only [indxMod, indxSize]
    omega
  have hL : psplitLeft items r.1 r.2 skip = ((items.take r.2).map some).insertIdx skip none := by
    simp only [psplitLeft, hon, if_true, hcount, hslots, Nat.sub_self, List.replicate_zero,
      List.append_nil]
    exact List.take_of_length_le (by omega)
  simp only [psplitAt, hon, if_true, hL, psplitRight_zero hpos]

theorem psplitAt_alone (items : List Item) (hoff : r.1 = r.2) (hle : skip ≤ r.2) (hzero : r.2 = 0) :
    none ∈ (psplitAt items skip r).right ∧ (psplitAt items skip r).onLeft = true := by
  have hon : skip ≤ r.1 := by omega
  rw [psplitAt, if_pos hon, hzero, List.drop_zero]
  cases items <;> simp [psplitRight]

end

theorem SplitFits.divides {c : Config} {items : List Item} {skip : Nat} {item : Item}
    (h : SplitFits c items skip item) (hlen : items.length + 2 < indxMod / indxSize)
    (hskip : skip ≤ items.length) :
    (halves c items skip item).1 ++ (halves c items skip item).2 =
        (items.map some).insertIdx skip (some item) ∧
      (btPsplit c items skip item.nbytes).skip <
        (if (btPsplit c items skip item.nbytes).onLeft then (btPsplit c items skip item.nbytes).left
          else (btPsplit c items skip item.nbytes).right).length := by
  obtain ⟨hleft, -, hsome, hsome', -, -⟩ := h
  have hmax := hlen
  simp only [indxMod, indxSize] at hmax
  have hout : ScanOutcome skip (0 + items.length) (psplitScan (c.psize - btdataoff)
      ((c.psize - btdataoff) / 2) skip item.nbytes items 0 0 0 0) :=
    scan_outcome (Nat.zero_le skip) (by omega) (by simp only [indxMod]; omega)
  rw [Nat.zero_add] at hout
  generalize hr : psplitScan _ _ skip item.nbytes items 0 0 0 0 = r at hout
  have hs : btPsplit c items skip item.nbytes = psplitAt items skip r := by rw [btPsplit, hr]
  simp only [halves, hs] at hleft hsome hsome' ⊢
  cases hout with
  | right hoff hle htop =>
    have htake : ((items.take r.2).map some).length = r.2 := by simp [htop]
    rw [psplitAt_right hlen hskip hoff hle htop]
    simp only [Bool.false_eq_true, if_false, set_insertIdx]
    constructor
    · have := insertIdx_append_right (x := some item) ((items.take r.2).map some)
        ((items.drop r.2).map some) (i := skip) (by omega)
      rw [← List.map_append, List.take_append_drop, htake] at this
      exact this.symm
    · rw [List.length_insertIdx_of_le_length (by simp; omega)]
      simp
      omega
  | left hoff hle htop =>
    have htake : ((items.take r.2).map some).length = r.2 := by simp [htop]
    have hpos : 0 < r.2 := by
      by_contra hzero
      obtain ⟨hnone, hon⟩ := psplitAt_alone items hoff hle (Nat.eq_zero_of_not_pos hzero)
      rw [if_pos hon] at hsome'
      exact hsome' hnone
    rw [psplitAt_left hlen hoff hle htop hpos]
    simp only [if_true, set_insertIdx]
    refine ⟨?_, ?_⟩
    · rw [← insertIdx_append_left _ _ (by omega), ← List.map_append, List.take_append_drop]
    · rw [List.length_insertIdx_of_le_length (by omega), htake]
      omega
  | ranOut hoff htop hle =>
    -- the slot behind the last item of the left page is never filled
    exfalso
    have hon : skip ≤ r.1 := by omega
    have hslots : (((items.take r.2).map some).insertIdx skip none).length = r.2 + 1 := by
      rw [List.length_insertIdx_of_le_length (by simp; omega)]
      simp [htop]
    have hcount : (r.1 + 1) % (indxMod / indxSize) = r.2 + 2 := by
      simp only [indxMod, indxSize]
      omega
    simp only [psplitAt, hon, if_true, psplitLeft, hcount, hslots] at hsome
    rw [List.take_of_length_le (by omega), List.set_append_left _ _ (by omega)] at hsome
    exact hsome (by simp)
  | wrapped hoff hnxt hzero =>
    exfalso
    refine hleft ?_
    simp [psplitAt, psplitLeft, hoff, hnxt, hzero, indxMod, indxSize]

end Btree

end Bsdi.Db
