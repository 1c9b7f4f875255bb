import Bsdi.Pax.Ustar
import Mathlib.Data.Nat.Find

/-!
# Splitting a name

What `name_split` promises `ustar_wr`: a long name is cut at a slash into two parts that both fit
their field, whenever such a slash exists.
-/

namespace Bsdi.Pax

open Lib

variable {name : Nat → Chr} {len i : Nat}

/-- A path of `len` characters. -/
structure Path (name : Nat → Chr) (len : Nat) : Prop where
  pos : 0 < len
  ends : name len = 0
  nonzero : ∀ i < len, name i ≠ 0

/-- The slash at `i` divides the path into a prefix and a name for the two fields of the header. -/
structure Splits (name : Nat → Chr) (len i : Nat) : Prop where
  slash : name i = 47
  prefix_pos : 0 < i
  prefix_le : i ≤ tpfsz
  name_pos : i + 1 < len
  name_le : len ≤ i + 1 + tnmsz

/-- `name_split` on one path: a path that fits the name field is not split, and any other is split
at a slash that divides it whenever there is one. -/
structure Exact (name : Nat → Chr) (len : Nat) : Prop where
  whole : nameSplit name len = some 0 ↔ len ≤ tnmsz
  splits : ∀ i, tnmsz < len → nameSplit name len = some i → Splits name len i
  refused : tnmsz < len → (nameSplit name len = none ↔ ∀ i, ¬ Splits name len i)

/-- A path one longer than the name field that starts with a slash and has another one to split
at. -/
def Rooted (name : Nat → Chr) (len : Nat) : Prop :=
  len = tnmsz + 1 ∧ name 0 = 47 ∧ ∃ i, 0 < i ∧ i + 1 < len ∧ name i = 47

/-- A path with a slash at its end, and no other at or after the position the scan starts from. -/
def Trailing (name : Nat → Chr) (len : Nat) : Prop :=
  tnmsz < len ∧ len ≤ tpfsz + 1 ∧ name (len - 1) = 47 ∧
    ∀ i, len - tnmsz - 1 ≤ i → i + 1 < len → name i ≠ 47

theorem slashFrom_eq {stop : Nat} (hstop : name stop = 0 ∨ name stop = 47) :
    ∀ {fuel start : Nat}, start ≤ stop → stop - start < fuel →
      (∀ i, start ≤ i → i < stop → name i ≠ 0 ∧ name i ≠ 47) →
      slashFrom name fuel start = stop := by
  intro fuel
  induction fuel with
  | zero => intro start _ hfuel; omega
  | succ fuel ih =>
    intro start hle hfuel hpass
    rcases Nat.eq_or_lt_of_le hle with rfl | hlt
    · rcases hstop with h | h <;> simp [slashFrom, h]
    · rw [slashFrom, if_pos (hpass start le_rfl hlt)]
      exact ih hlt (by omega) fun i hi => hpass i (by omega)

theorem slashFrom_spec (hpath : Path name len) (hlong : tnmsz < len) :
    ∃ stop, slashFrom name (paxpathlen + 1) (len - tnmsz - 1) = stop ∧ len - tnmsz - 1 ≤ stop ∧
      (stop = len ∨ stop < len ∧ name stop = 47) ∧
      ∀ i, len - tnmsz - 1 ≤ i → i < stop → name i ≠ 47 := by
  have hends : ∃ k, name (len - tnmsz - 1 + k) = 0 ∨ name (len - tnmsz - 1 + k) = 47 :=
    ⟨tnmsz + 1, Or.inl (by rw [show len - tnmsz - 1 + (tnmsz + 1) = len by omega, hpath.ends])⟩
  classical
  have hfound := Nat.find_spec hends
  have hfirst : ∀ k < Nat.find hends,
      name (len - tnmsz - 1 + k) ≠ 0 ∧ name (len - tnmsz - 1 + k) ≠ 47 :=
    fun k hk => not_or.mp (Nat.find_min hends hk)
  have hle : Nat.find hends ≤ tnmsz + 1 := Nat.find_le
    (Or.inl (by rw [show len - tnmsz - 1 + (tnmsz + 1) = len by omega, hpath.ends]))
  have hpass : ∀ i, len - tnmsz - 1 ≤ i → i < len - tnmsz - 1 + Nat.find hends →
      name i ≠ 0 ∧ name i ≠ 47 := by
    intro i hi hlt
    have := hfirst (i - (len - tnmsz - 1)) (by omega)
    rwa [show len - tnmsz - 1 + (i - (len - tnmsz - 1)) = i by omega] at this
  refine ⟨len - tnmsz - 1 + Nat.find hends, slashFrom_eq hfound (by omega) ?_ hpass, by omega, ?_,
    fun i hi hlt => (hpass i hi hlt).2⟩
  · have : tnmsz + 1 < paxpathlen + 1 := by decide
    omega
  · rcases Nat.eq_or_lt_of_le (show len - tnmsz - 1 + Nat.find hends ≤ len by omega) with h | h
    · exact Or.inl h
    · exact Or.inr ⟨h, hfound.resolve_left (hpath.nonzero _ h)⟩

theorem Splits.start_le (h : Splits name len i) : len - tnmsz - 1 ≤ i := by
  have := h.name_le
  omega

theorem nameSplit_eq (hpath : Path name len) (hlong : tnmsz < len)
    (hshort : len ≤ tpfsz + tnmsz + 1) :
    ∃ stop, len - tnmsz - 1 ≤ stop ∧ (stop = len ∨ stop < len ∧ name stop = 47) ∧
      (∀ i, len - tnmsz - 1 ≤ i → i < stop → name i ≠ 47) ∧
      nameSplit name len = if stop = len ∨ tpfsz < stop ∨ stop = 0 then none else some stop := by
  obtain ⟨stop, hscan, hle, hat, hpass⟩ := slashFrom_spec hpath hlong
  refine ⟨stop, hle, hat, hpass, ?_⟩
  simp only [nameSplit, if_neg (not_le.mpr hlong), if_neg (not_lt.mpr hshort), hscan]
  rcases hat with rfl | ⟨hlt, hslash⟩
  · simp [hpath.ends]
  · have hne : stop ≠ len := by omega
    simp [hslash, hne]

/-- Every path is split as promised, except those of the two kinds. -/
theorem exact_iff (hpath : Path name len) :
    Exact name len ↔ ¬ Rooted name len ∧ ¬ Trailing name len := by
  by_cases hlong : tnmsz < len
  swap
  · have hwhole : nameSplit name len = some 0 := by simp [nameSplit, not_lt.mp hlong]
    have hroot : ¬ Rooted name len := fun h => hlong (by rw [h.1]; omega)
    have htrail : ¬ Trailing name len := fun h => hlong h.1
    simp only [hroot, htrail, not_false_eq_true, and_self, iff_true]
    exact ⟨by simp [hwhole, not_lt.mp hlong], fun i h => absurd h hlong, fun h => absurd h hlong⟩
  by_cases hshort : len ≤ tpfsz + tnmsz + 1
  swap
  · have hnone : nameSplit name len = none := by
      simp [nameSplit, not_le.mpr hlong, not_le.mp hshort]
    have hno : ∀ i, ¬ Splits name len i := fun i h => hshort (by
      have := h.prefix_le
      have := h.name_le
      omega)
    have hroot : ¬ Rooted name len := fun h => hshort (by rw [h.1]; omega)
    have htrail : ¬ Trailing name len := fun h => hshort (by have := h.2.1; omega)
    simp only [hroot, htrail, not_false_eq_true, and_self, iff_true]
    exact ⟨by simp [hnone, hlong], fun i _ h => by simp [hnone] at h, fun _ => by simpa [hnone]⟩
  obtain ⟨stop, hle, hat, hpass, heq⟩ := nameSplit_eq hpath hlong hshort
  constructor
  · refine fun hexact => ⟨?_, ?_⟩
    · -- the scan stops at the slash the path starts with
      rintro ⟨hlen, hroot, i, hi, hend, hslash⟩
      have hstop : stop = 0 := by
        by_contra hne
        exact hpass 0 (by omega) (by omega) hroot
      refine (hexact.refused hlong).mp (by simp [heq, hstop]) i ⟨hslash, hi, ?_, hend, by omega⟩
      have : tnmsz ≤ tpfsz := by decide
      omega
    · -- the scan stops at the slash the path ends with
      rintro ⟨-, hle', hslash, hnone⟩
      have hstop : stop = len - 1 := by
        rcases hat with rfl | ⟨hlt, hat⟩
        · exact absurd hslash (hpass _ (by omega) (by omega))
        · by_contra hne
          exact hnone stop hle (by omega) hat
      have hpos : 0 < tnmsz := by decide
      have := (hexact.splits stop hlong (by
        rw [heq, if_neg (by omega)])).name_pos
      omega
  · rintro ⟨hroot, htrail⟩
    have hno : (stop = len ∨ tpfsz < stop) → ∀ i, ¬ Splits name len i := by
      rintro hout i h
      have := h.name_pos
      have := h.prefix_le
      exact hpass i h.start_le (by omega) h.slash
    have hno0 : stop = 0 → ∀ i, ¬ Splits name len i := by
      rintro rfl i h
      have hlen : len = tnmsz + 1 := by omega
      exact hroot ⟨hlen, (hat.resolve_left (by omega)).2, i, h.prefix_pos, h.name_pos, h.slash⟩
    have hyes : stop ≠ len → ¬ tpfsz < stop → stop ≠ 0 → Splits name len stop := by
      intro hne hfit hpos
      have hslash := (hat.resolve_left hne).2
      refine ⟨hslash, by omega, by omega, ?_, by omega⟩
      by_contra hend
      have hlast : stop = len - 1 := by omega
      exact htrail ⟨hlong, by omega, hlast ▸ hslash, fun i hi hlt => hpass i hi (by omega)⟩
    by_cases hnone : stop = len ∨ tpfsz < stop ∨ stop = 0
    · rw [if_pos hnone] at heq
      refine ⟨by simp [heq, hlong], fun i _ h => by simp [heq] at h, fun _ => ?_⟩
      simp only [heq, true_iff]
      rcases hnone with h | h | h
      · exact hno (Or.inl h)
      · exact hno (Or.inr h)
      · exact hno0 h
    · rw [if_neg hnone] at heq
      obtain ⟨hne, hfit, hpos⟩ : stop ≠ len ∧ ¬ tpfsz < stop ∧ stop ≠ 0 := by tauto
      have hs := hyes hne hfit hpos
      refine ⟨by simp [heq, hlong, hpos], fun i _ h => ?_, fun _ => ?_⟩
      · rw [heq, Option.some.injEq] at h
        exact h ▸ hs
      · simp only [heq, reduceCtorEq, false_iff, not_forall, not_not]
        exact ⟨stop, hs⟩

theorem exact_at_twenty :
    Exact (fun i => if i = 120 then 0 else if i = 20 then 47 else 97) 120 := by
  refine (exact_iff ⟨by decide, by decide, ?_⟩).mpr ⟨?_, ?_⟩
  · intro i hi
    have : i ≠ 120 := by omega
    simp only [this, if_false]
    split <;> decide
  · rintro ⟨h, -⟩
    exact absurd h (by decide)
  · rintro ⟨-, -, h, -⟩
    exact absurd h (by decide)

def rooted : Nat → Chr := fun i => if i < 2 then 47 else if i < 101 then 97 else 0

def trailing : Nat → Chr := fun i => if i < 100 then 97 else if i = 100 then 47 else 0

theorem rooted_path : Path rooted 101 := by
  refine ⟨by decide, by decide, fun i hi => ?_⟩
  unfold rooted
  split
  · decide
  · simp

theorem trailing_path : Path trailing 101 := by
  refine ⟨by decide, by decide, fun i hi => ?_⟩
  unfold trailing
  split
  · decide
  · have : i = 100 := by omega
    simp [this]

/-- The first of these could be split and is refused, the second is split with nothing left for the
name. -/
theorem rooted_refused_and_trailing_split :
    (Path rooted 101 ∧ Splits rooted 101 1 ∧ nameSplit rooted 101 = none) ∧
      Path trailing 101 ∧ (∀ i, ¬ Splits trailing 101 i) ∧ nameSplit trailing 101 = some 100 := by
  refine ⟨⟨rooted_path, ⟨by decide, by decide, by decide, by decide, by decide⟩,
    by decide +kernel⟩, trailing_path, fun i h => ?_, by decide +kernel⟩
  have hslash := h.slash
  have hend := h.name_pos
  have : i < 100 := by omega
  simp [trailing, this] at hslash

end Bsdi.Pax
