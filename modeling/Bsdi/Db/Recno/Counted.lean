import Bsdi.Db.Recno.Tree
import Mathlib.Algebra.BigOperators.Group.List.Basic

/-!
# Counted trees

The search takes the last slot of a page without looking at its count, so these counts may be
anything; all others are exact. In such a tree every record is found, and the deletion of a record
keeps the tree counted.
-/

namespace Bsdi.Db.Recno

variable {α : Type*} {size : α → ℕ} {good : α → Prop} {A B slots : List (ℕ × α)} {r : ℕ × α}
  {c h j : ℕ} {f : ℕ → ℕ}

/-- The slots of a page: every count but the last one is exact. -/
structure Proper (size : α → ℕ) (good : α → Prop) (slots : List (ℕ × α)) : Prop where
  ne : slots ≠ []
  exact : ∀ r ∈ slots.dropLast, r.1 = size r.2
  good : ∀ r ∈ slots, good r.2

theorem Proper.replace (hs : Proper size good (A ++ r :: B)) {p : α} (hp : good p)
    (hc : r.1 = size r.2 → c = size p) : Proper size good (A ++ (c, p) :: B) := by
  refine ⟨List.append_ne_nil_of_right_ne_nil _ (List.cons_ne_nil _ _), fun x hx => ?_,
    fun x hx => ?_⟩
  · have hexact := hs.exact
    rw [List.dropLast_append_cons] at hx hexact
    rcases List.mem_append.1 hx with hx | hx
    · exact hexact x (List.mem_append_left _ hx)
    · cases B with
      | nil => cases hx
      | cons b B =>
        rw [List.dropLast_cons_cons] at hx hexact
        rcases List.mem_cons.1 hx with rfl | hx
        · exact hc (hexact r (List.mem_append_right _ List.mem_cons_self))
        · exact hexact x (List.mem_append_right _ (List.mem_cons_of_mem _ hx))
  · rcases List.mem_append.1 hx with hx | hx
    · exact hs.good x (List.mem_append_left _ hx)
    · rcases List.mem_cons.1 hx with rfl | hx
      · exact hp
      · exact hs.good x (List.mem_append_right _ (List.mem_cons_of_mem _ hx))

theorem Proper.tail {b : ℕ × α} (hs : Proper size good (r :: b :: B)) :
    Proper size good (b :: B) :=
  ⟨List.cons_ne_nil _ _, fun x hx => hs.exact x (List.mem_cons_of_mem _ hx),
    fun x hx => hs.good x (List.mem_cons_of_mem _ hx)⟩

def below (size : α → ℕ) (slots : List (ℕ × α)) : ℕ := (slots.map fun r => size r.2).sum

theorem below_cons : below size (r :: slots) = size r.2 + below size slots := rfl

theorem findSlot_spec (total : ℕ) (hs : Proper size good slots) (hj : j < below size slots)
    (hb : total + below size slots < 2 ^ 32) :
    ∃ A r B, slots = A ++ r :: B ∧
      findSlot (total + j) slots total = (A.length, total + below size A) ∧
      below size A ≤ j ∧ j < below size A + size r.2 := by
  induction slots generalizing total j with
  | nil => exact absurd rfl hs.ne
  | cons r rest ih =>
    rw [below_cons] at hj hb
    cases rest with
    | nil => exact ⟨[], r, [], rfl, rfl, Nat.zero_le j, by rw [below] at hj ⊢; simp at hj ⊢; omega⟩
    | cons b rest =>
      have hr : r.1 = size r.2 := hs.exact r List.mem_cons_self
      have hmod : (total + r.1) % 2 ^ 32 = total + size r.2 := by
        rw [hr, Nat.mod_eq_of_lt (by omega)]
      rw [findSlot, hmod]
      · by_cases hlt : total + j < total + size r.2
        · rw [if_pos hlt]
          exact ⟨[], r, b :: rest, rfl, rfl, Nat.zero_le j, by
            have : below size ([] : List (ℕ × α)) = 0 := rfl
            omega⟩
        · rw [if_neg hlt]
          obtain ⟨A, r', B, heq, hfind, hle, hlt'⟩ := ih (j := j - size r.2)
            (total + size r.2) hs.tail (by omega) (by omega)
          rw [show total + size r.2 + (j - size r.2) = total + j by omega] at hfind
          refine ⟨r :: A, r', B, by rw [heq]; rfl, ?_, ?_, ?_⟩
          · rw [hfind, below_cons, Nat.add_assoc]
            rfl
          · rw [below_cons]
            omega
          · rw [below_cons]
            omega
      · exact fun h => by cases h

/-- A well-formed page and what is below it. A page holds less than `2 ^ 16` items. -/
def Counted : (h : ℕ) → Page h → Prop
  | 0, items => List.length items < 2 ^ 16
  | h + 1, slots => Proper (fun page => (recs h page).length) (Counted h) slots

theorem length_flatMap_recs (slots : List (ℕ × Page h)) :
    (slots.flatMap fun r => recs h r.2).length = below (fun page => (recs h page).length) slots :=
  List.length_flatMap

theorem modify_append {β : Type*} (g : β → β) (A B : List β) (b : β) :
    (A ++ b :: B).modify A.length g = A ++ g b :: B := by
  induction A with
  | nil => rfl
  | cons a A ih => exact congrArg (a :: ·) ih

theorem leafAt_succ {h : ℕ} (slots : List (ℕ × Page h)) (i : ℕ) (path : List ℕ) :
    leafAt (h + 1) slots (i :: path) = (slots[i]?.map fun r => leafAt h r.2 path).getD [] := by
  cases hslot : slots[i]? with
  | none => simp [leafAt, getRinternal, hslot]
  | some r => simp [leafAt, getRinternal, hslot]

theorem leafAt_recount (page : Page h) (path path' : List ℕ) :
    leafAt h (recount f h page path) path' = leafAt h page path' := by
  induction h generalizing path path' with
  | zero => rfl
  | succ h ih =>
    cases path with
    | nil => rfl
    | cons i path =>
      cases path' with
      | nil => rfl
      | cons k path' =>
        rw [leafAt_succ, leafAt_succ]
        change ((List.modify page i fun r : ℕ × Page h => _)[k]?.map _).getD [] = _
        rw [List.getElem?_modify]
        cases (show List (ℕ × Page h) from page)[k]? with
        | none => rfl
        | some r =>
          by_cases hik : i = k
          · simp [hik, ih]
          · simp [hik]

theorem decr_of_pos {n : ℕ} (hpos : 0 < n) (hlt : n < 2 ^ 32) : decr n = n - 1 := by
  rw [decr, maxRecNumber]
  omega

theorem descend_spec (total : ℕ) (page : Page h) (hc : Counted h page) (hj : j < (recs h page).length)
    (hb : total + (recs h page).length < 2 ^ 32) :
    ∃ path index, descend (total + j) h page total = (path, index) ∧
      (leafAt h page path)[index]? = (recs h page)[j]? ∧
      Counted h (setLeaf ((leafAt h page path).eraseIdx index) h (recount decr h page path) path) ∧
      recs h (setLeaf ((leafAt h page path).eraseIdx index) h (recount decr h page path) path) =
        (recs h page).eraseIdx j := by
  induction h generalizing total j with
  | zero =>
    have hlen : (recs 0 page).length < 2 ^ 16 := hc
    refine ⟨[], j, ?_, rfl, ?_, rfl⟩
    · rw [descend, show (total + j + 2 ^ 32 - total) % 2 ^ 32 % 2 ^ 16 = j by omega]
    · exact Nat.lt_of_le_of_lt (List.length_eraseIdx_le _ j) hlen
  | succ h ih =>
    have hsum : (recs (h + 1) page).length = below (fun page => (recs h page).length) page :=
      length_flatMap_recs page
    rw [hsum] at hj hb
    obtain ⟨A, r, B, heq, hfind, hle, hlt⟩ := findSlot_spec total hc hj hb
    subst heq
    have hbelow : below (fun page => (recs h page).length) (A ++ r :: B) =
        below (fun page => (recs h page).length) A + (recs h r.2).length +
          below (fun page => (recs h page).length) B := by
      simp [below, Nat.add_assoc]
    have hA := length_flatMap_recs A
    generalize below (fun page => (recs h page).length) A = a at *
    obtain ⟨path, index, hdescend, hitem, hcounted, herase⟩ := ih (j := j - a) (total + a)
      r.2 (hc.good r (List.mem_append_right _ List.mem_cons_self)) (by omega) (by omega)
    have hslot : (A ++ r :: B)[A.length]? = some r := by simp
    have hleaf : leafAt (h + 1) (A ++ r :: B) (A.length :: path) = leafAt h r.2 path := by
      rw [leafAt_succ, hslot]
      rfl
    have hset : ∀ items, setLeaf items (h + 1)
        (recount decr (h + 1) (A ++ r :: B) (A.length :: path)) (A.length :: path) =
        A ++ (decr r.1, setLeaf items h (recount decr h r.2 path) path) :: B := fun items => by
      change List.modify (List.modify (A ++ r :: B) A.length _) A.length _ = _
      rw [modify_append, modify_append]
    have hrecs : ∀ r' : ℕ × Page h, recs (h + 1) (A ++ r' :: B) =
        (A.flatMap fun r => recs h r.2) ++ (recs h r'.2 ++ B.flatMap fun r => recs h r.2) :=
      fun r' => by
        rw [recs, List.flatMap_append, List.flatMap_cons]
    have herased := List.length_eraseIdx_of_lt (l := recs h r.2) (i := j - a) (by omega)
    rw [show total + a + (j - a) = total + j by omega] at hdescend
    refine ⟨A.length :: path, index, ?_, ?_, ?_, ?_⟩
    · rw [descend, hfind]
      simp only [getRinternal, hslot, hdescend]
    · rw [hleaf, hitem, hrecs, List.getElem?_append_right (by omega),
        List.getElem?_append_left (by omega), hA]
    · rw [hleaf, hset]
      refine hc.replace hcounted fun hr => ?_
      rw [herase, herased, hr, decr_of_pos (by omega) (by omega)]
    · rw [hleaf, hset, hrecs, hrecs, herase, List.eraseIdx_append_of_length_le (by omega), hA,
        List.eraseIdx_append_of_lt_length (by omega)]

end Bsdi.Db.Recno
