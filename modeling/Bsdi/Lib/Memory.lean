import Mathlib.Data.List.Basic

/-!
# Character arrays

An array is a function from offsets to values. Ranges of it are read and stored as lists.
-/

namespace Bsdi.Lib

variable {α : Type*} {mem mem' : Nat → α} {i j n : Nat} {bytes : List α}

/-- The `n` values from offset `i` on. -/
def slice (mem : Nat → α) (i n : Nat) : List α := (List.range n).map fun j => mem (i + j)

/-- The array after `bytes` are copied to offset `i`. -/
def store (mem : Nat → α) (i : Nat) (bytes : List α) : Nat → α := fun j =>
  if j < i then mem j else bytes.getD (j - i) (mem j)

@[simp] theorem length_slice : (slice mem i n).length = n := by simp [slice]

@[simp] theorem slice_zero : slice mem i 0 = [] := rfl

theorem getElem?_slice (h : j < n) : (slice mem i n)[j]? = some (mem (i + j)) := by
  simp [slice, h]

theorem slice_append (m : Nat) : slice mem i (n + m) = slice mem i n ++ slice mem (i + n) m := by
  simp only [slice, List.range_add, List.map_append, List.map_map]
  congr 2
  funext k
  simp [Nat.add_assoc]

theorem slice_succ : slice mem i (n + 1) = slice mem i n ++ [mem (i + n)] := by
  simp [slice, List.range_succ]

theorem slice_cons : slice mem i (n + 1) = mem i :: slice mem (i + 1) n := by
  rw [Nat.add_comm n 1, slice_append]
  simp [slice]

theorem slice_congr (h : ∀ k, i ≤ k → k < i + n → mem' k = mem k) :
    slice mem' i n = slice mem i n := by
  refine List.map_congr_left fun k hk => h (i + k) (Nat.le_add_right i k) ?_
  exact Nat.add_lt_add_left (List.mem_range.1 hk) i

theorem eq_of_slice_eq (h : slice mem' i n = slice mem i n) (hj : j < n) :
    mem' (i + j) = mem (i + j) := by
  have hget : (slice mem' i n)[j]? = (slice mem i n)[j]? := by rw [h]
  rw [getElem?_slice hj, getElem?_slice hj] at hget
  exact Option.some.inj hget

theorem mem_slice {a : α} : a ∈ slice mem i n ↔ ∃ k, k < n ∧ mem (i + k) = a := by
  simp [slice]

theorem take_slice {m : Nat} (h : m ≤ n) : (slice mem i n).take m = slice mem i m := by
  obtain ⟨k, rfl⟩ := Nat.exists_eq_add_of_le h
  rw [slice_append, List.take_left' length_slice]

theorem slice_store : slice (store mem i bytes) i bytes.length = bytes := by
  refine List.ext_getElem (by simp) fun k _ hk => ?_
  have hnot : ¬ i + k < i := by omega
  simp [slice, store, hk, hnot]

theorem store_of_lt (h : j < i) : store mem i bytes j = mem j := if_pos h

@[simp] theorem store_nil : store mem i [] = mem := by
  funext j
  simp [store]

/-- Storing one value after another stores the list of them. -/
theorem store_cons (a : α) :
    store (store mem i [a]) (i + 1) bytes = store mem i (a :: bytes) := by
  funext j
  rcases Nat.lt_trichotomy j i with hlt | rfl | hgt
  · simp [store, hlt, Nat.lt_succ_of_lt hlt]
  · simp [store]
  · obtain ⟨k, rfl⟩ := Nat.exists_eq_add_of_lt hgt
    have hnot : ¬ i + k + 1 < i := by omega
    have hnot' : ¬ i + k + 1 < i + 1 := by omega
    have hsub : i + k + 1 - i = k + 1 := by omega
    have hsub' : i + k + 1 - (i + 1) = k := by omega
    simp only [store, if_neg hnot, if_neg hnot', hsub, hsub', List.getD_cons_succ, List.getD_nil]

theorem slice_store_before (h : j + n ≤ i) : slice (store mem i bytes) j n = slice mem j n :=
  slice_congr fun _ _ hk => store_of_lt (by omega)

/-- Storing behind the first `i` values appends. -/
theorem slice_store_append :
    slice (store mem i bytes) 0 (i + bytes.length) = slice mem 0 i ++ bytes := by
  rw [slice_append, slice_store_before (by omega), Nat.zero_add, slice_store]

/-- Cut a record into fields of the given widths. -/
def cut : List Nat → List α → List (List α)
  | [], _ => []
  | w :: ws, l => l.take w :: cut ws (l.drop w)

/-- A record is cut into the fields it was put together from. -/
theorem cut_flatten (fields : List (List α)) (rest : List α) :
    cut (fields.map List.length) (fields.flatten ++ rest) = fields := by
  induction fields with
  | nil => rfl
  | cons f fields ih =>
    rw [List.map_cons, List.flatten_cons, List.append_assoc, cut, List.take_left, List.drop_left, ih]

end Bsdi.Lib
