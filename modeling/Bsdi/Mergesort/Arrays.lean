import Bsdi.Mergesort.Merge
import Bsdi.Lib.StableSort
import Mathlib.Tactic.Ring

/-!
# Elements and links in memory

The elements of an array, read as a list, and what the writes of `merge.c` do to them.
-/

namespace Bsdi.Mergesort

open Bsdi.Lib

variable {size a i j k n p : ℕ} {mem mem' : Mem}

/-- Two memories agree from `lo` up to `hi`. -/
def Same (mem mem' : Mem) (lo hi : ℕ) : Prop := ∀ x, lo ≤ x → x < hi → mem'.byte x = mem.byte x

theorem put_outside {bytes : List UInt8} {x : ℕ} (h : x < a ∨ a + bytes.length ≤ x) :
    (mem.put a bytes).byte x = mem.byte x := by
  rcases h with h | h
  · exact store_of_lt h
  · have hnot : ¬x < a := by omega
    refine (if_neg hnot).trans ?_
    rw [List.getD_eq_getElem?_getD, List.getElem?_eq_none (by omega)]
    rfl

theorem put_inside {l : List UInt8} (h : j < l.length) :
    (mem.put a l).byte (a + j) = l[j] := by
  have hnot : ¬a + j < a := by omega
  refine (if_neg hnot).trans ?_
  rw [Nat.add_sub_cancel_left, List.getD_eq_getElem?_getD, List.getElem?_eq_getElem h]
  rfl

theorem le_eval (p : ℕ) : p ≤ eval p := by
  simp only [eval, psize]
  omega

theorem eval_le (p : ℕ) : eval p ≤ p + 3 := by
  simp only [eval, psize]
  omega

theorem length_ptrBytes (p : ℕ) : (ptrBytes p).length = 4 := rfl

theorem setLink_outside {x : ℕ} (h : x < eval a ∨ eval a + 4 ≤ x) :
    (setLink mem a p).byte x = mem.byte x := put_outside h

theorem link_setLink (h : p < 2 ^ 32) : link (setLink mem a p) a = p := by
  have hbyte : ∀ x, (UInt8.ofNat x).toNat = x % 256 := fun x => UInt8.toNat_ofNat'
  have h₀ : (setLink mem a p).byte (eval a) = UInt8.ofNat p :=
    put_inside (l := ptrBytes p) (j := 0) (by rw [length_ptrBytes]; decide)
  have h₁ : (setLink mem a p).byte (eval a + 1) = UInt8.ofNat (p / 256) :=
    put_inside (l := ptrBytes p) (j := 1) (by rw [length_ptrBytes]; decide)
  have h₂ : (setLink mem a p).byte (eval a + 2) = UInt8.ofNat (p / 65536) :=
    put_inside (l := ptrBytes p) (j := 2) (by rw [length_ptrBytes]; decide)
  have h₃ : (setLink mem a p).byte (eval a + 3) = UInt8.ofNat (p / 16777216) :=
    put_inside (l := ptrBytes p) (j := 3) (by rw [length_ptrBytes]; decide)
  rw [link, h₀, h₁, h₂, h₃, hbyte, hbyte, hbyte, hbyte]
  omega

theorem link_congr (h : Same mem mem' (eval a) (eval a + 4)) : link mem' a = link mem a := by
  rw [link, link, h _ (by omega) (by omega), h _ (by omega) (by omega), h _ (by omega) (by omega),
    h _ (by omega) (by omega)]

/-- The address of element `k`. -/
def cell (size a k : ℕ) : ℕ := a + k * size

theorem cell_zero : cell size a 0 = a := by simp [cell]

theorem cell_succ : cell size a (k + 1) = cell size a k + size := by
  rw [cell, cell, Nat.add_one_mul, Nat.add_assoc]

theorem cell_add : cell size a (i + j) = cell size a i + j * size := by
  rw [cell, cell, Nat.add_mul, Nat.add_assoc]

theorem cell_le (h : i ≤ j) : cell size a i ≤ cell size a j :=
  Nat.add_le_add_left (Nat.mul_le_mul_right size h) a

theorem cell_succ_le (h : i < j) : cell size a i + size ≤ cell size a j := by
  rw [← cell_succ]
  exact cell_le h

theorem cell_lt_iff (hsize : 0 < size) : cell size a i < cell size a j ↔ i < j := by
  rw [cell, cell, Nat.add_lt_add_iff_left, Nat.mul_lt_mul_right hsize]

theorem cell_le_iff (hsize : 0 < size) : cell size a i ≤ cell size a j ↔ i ≤ j := by
  rw [← Nat.not_lt, cell_lt_iff hsize, Nat.not_lt]

theorem cell_inj (hsize : 0 < size) : cell size a i = cell size a j ↔ i = j := by
  rw [cell, cell, Nat.add_left_cancel_iff, Nat.mul_right_cancel_iff hsize]

/-- `len` elements of the array at `a`, from element `i` on. -/
def elts (size : ℕ) (mem : Mem) (a i len : ℕ) : List Elem :=
  slice (fun k => elt size mem (cell size a k)) i len

theorem length_elts : (elts size mem a i n).length = n := length_slice

theorem getElem_elts (h : k < (elts size mem a i n).length) :
    (elts size mem a i n)[k] = elt size mem (cell size a (i + k)) := by
  simp [elts, slice]

theorem elts_append : elts size mem a i (n + k) = elts size mem a i n ++ elts size mem a (i + n) k
    :=
  slice_append k

theorem elts_succ :
    elts size mem a i (n + 1) = elts size mem a i n ++ [elt size mem (cell size a (i + n))] :=
  slice_succ

theorem elts_cons :
    elts size mem a i (n + 1) = elt size mem (cell size a i) :: elts size mem a (i + 1) n :=
  slice_cons

theorem elt_congr (h : Same mem mem' p (p + size)) : elt size mem' p = elt size mem p :=
  slice_congr fun x h₁ h₂ => h x h₁ h₂

theorem elts_congr (h : Same mem mem' (cell size a i) (cell size a (i + n))) :
    elts size mem' a i n = elts size mem a i n := by
  refine slice_congr fun k h₁ h₂ => elt_congr fun x hx₁ hx₂ => h x ?_ ?_
  · exact (cell_le h₁).trans hx₁
  · exact hx₂.trans_le (cell_succ_le h₂)

theorem mem_elts {x : Elem} :
    x ∈ elts size mem a i n ↔ ∃ k, k < n ∧ elt size mem (cell size a (i + k)) = x :=
  mem_slice

theorem lt_of_mem_elts {x : Elem} (hx : x ∈ elts size mem a i (j - i)) : i < j := by
  obtain ⟨k, hk, -⟩ := mem_elts.1 hx
  omega

theorem swapBytes_spec (mem : Mem) {s : ℕ} (h : a + n ≤ s) :
    (∀ j < n, (swapBytes n a s mem).byte (a + j) = mem.byte (s + j)) ∧
      (∀ j < n, (swapBytes n a s mem).byte (s + j) = mem.byte (a + j)) ∧
      ∀ x, (x < a ∨ a + n ≤ x) → (x < s ∨ s + n ≤ x) →
        (swapBytes n a s mem).byte x = mem.byte x := by
  induction n generalizing a s mem with
  | zero => exact ⟨fun j hj => absurd hj (Nat.not_lt_zero j),
      fun j hj => absurd hj (Nat.not_lt_zero j), fun x _ _ => rfl⟩
  | succ n ih =>
    obtain ⟨hfirst, hsecond, hrest⟩ :=
      ih (a := a + 1) (s := s + 1) ((mem.put a [mem.byte s]).put s [mem.byte a]) (by omega)
    have hout : ∀ x, x ≠ a → x ≠ s →
        ((mem.put a [mem.byte s]).put s [mem.byte a]).byte x = mem.byte x := fun x ha hs => by
      rw [put_outside (by simp only [List.length_singleton]; omega),
        put_outside (by simp only [List.length_singleton]; omega)]
    have ha : ((mem.put a [mem.byte s]).put s [mem.byte a]).byte a = mem.byte s := by
      rw [put_outside (by omega)]
      exact put_inside (l := [mem.byte s]) (j := 0) (by simp)
    have hs : ((mem.put a [mem.byte s]).put s [mem.byte a]).byte s = mem.byte a :=
      put_inside (l := [mem.byte a]) (j := 0) (by simp)
    rw [swapBytes]
    refine ⟨fun j hj => ?_, fun j hj => ?_, fun x hx₁ hx₂ => ?_⟩
    · rcases j with _ | j
      · exact (hrest a (by omega) (by omega)).trans ha
      · rw [Nat.add_comm j, ← Nat.add_assoc, hfirst j (by omega), hout _ (by omega) (by omega),
          Nat.add_assoc]
    · rcases j with _ | j
      · exact (hrest s (by omega) (by omega)).trans hs
      · rw [Nat.add_comm j, ← Nat.add_assoc, hsecond j (by omega), hout _ (by omega) (by omega),
          Nat.add_assoc]
    · rw [hrest x (by omega) (by omega), hout x (by omega) (by omega)]

theorem swap_spec (mem : Mem) (hij : i < j) :
    (elt size (swapBytes size (cell size a i) (cell size a j) mem) (cell size a i) =
        elt size mem (cell size a j)) ∧
      (elt size (swapBytes size (cell size a i) (cell size a j) mem) (cell size a j) =
        elt size mem (cell size a i)) ∧
      ∀ x, (x < cell size a i ∨ cell size a (i + 1) ≤ x) →
        (x < cell size a j ∨ cell size a (j + 1) ≤ x) →
          (swapBytes size (cell size a i) (cell size a j) mem).byte x = mem.byte x := by
  have happart : cell size a i + size ≤ cell size a j := cell_succ_le hij
  obtain ⟨hfirst, hsecond, hrest⟩ := swapBytes_spec mem happart
  refine ⟨List.map_congr_left fun x hx => hfirst x (List.mem_range.1 hx),
    List.map_congr_left fun x hx => hsecond x (List.mem_range.1 hx), fun x h₁ h₂ => ?_⟩
  rw [cell_succ] at h₁ h₂
  exact hrest x h₁ h₂

end Bsdi.Mergesort
