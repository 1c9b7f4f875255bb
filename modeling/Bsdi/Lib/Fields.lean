import Mathlib.Data.List.Pairwise
import Mathlib.Tactic.Common

/-!
# Reversing fields of a memory

A field is a range of addresses. Reversing the fields of a list one after the other turns each
of them around, if they do not overlap, and leaves the rest of the memory alone; doing it twice
does nothing.
-/

namespace Bsdi.Lib

variable {α : Type*}

/-- The addresses from `off` on, `len` of them. -/
structure Field where
  off : Nat
  len : Nat
  deriving DecidableEq

namespace Field

/-- Address `j` is in the field. -/
def Has (f : Field) (j : Nat) : Prop := f.off ≤ j ∧ j < f.off + f.len

instance (f : Field) (j : Nat) : Decidable (f.Has j) := inferInstanceAs (Decidable (_ ∧ _))

/-- The fields have no address in common. -/
def Apart (f g : Field) : Prop := ∀ j, f.Has j → ¬ g.Has j

theorem Apart.symm {f g : Field} (h : f.Apart g) : g.Apart f := fun j hg hf => h j hf hg

theorem apart_of_le {f g : Field} (h : f.off + f.len ≤ g.off) : f.Apart g := by
  rintro j ⟨-, hlt⟩ ⟨hle, -⟩
  omega

/-- The address at the other end of the field. -/
def mirror (f : Field) (j : Nat) : Nat := f.off + (f.off + f.len - 1 - j)

theorem has_mirror {f : Field} {j : Nat} (h : f.Has j) : f.Has (f.mirror j) := by
  obtain ⟨hle, hlt⟩ := h
  constructor <;> simp only [mirror] <;> omega

theorem mirror_mirror {f : Field} {j : Nat} (h : f.Has j) : f.mirror (f.mirror j) = j := by
  obtain ⟨hle, hlt⟩ := h
  simp only [mirror]
  omega

/-- The memory with the field turned around. -/
def reverse (m : Nat → α) (f : Field) : Nat → α := fun j => if f.Has j then m (f.mirror j) else m j

theorem reverse_of_has {m : Nat → α} {f : Field} {j : Nat} (h : f.Has j) :
    reverse m f j = m (f.mirror j) := if_pos h

theorem reverse_of_not_has {m : Nat → α} {f : Field} {j : Nat} (h : ¬ f.Has j) :
    reverse m f j = m j := if_neg h

/-- The memory with all fields of the list turned around, one after the other. -/
def reverseAll (m : Nat → α) (fs : List Field) : Nat → α := fs.foldl reverse m

variable {m m' m'' : Nat → α} {fs gs : List Field} {f : Field} {j : Nat}

@[simp] theorem reverseAll_nil : reverseAll m [] = m := rfl

@[simp] theorem reverseAll_cons : reverseAll m (f :: fs) = reverseAll (reverse m f) fs := rfl

theorem reverseAll_append : reverseAll m (fs ++ gs) = reverseAll (reverseAll m fs) gs :=
  List.foldl_append

theorem reverseAll_of_not_has (h : ∀ f ∈ fs, ¬ f.Has j) : reverseAll m fs j = m j := by
  induction fs generalizing m with
  | nil => rfl
  | cons f fs ih =>
    rw [reverseAll_cons, ih fun g hg => h g (List.mem_cons_of_mem f hg),
      reverse_of_not_has (h f (by simp))]

/-- A field that no other one overlaps is turned around. -/
theorem reverseAll_of_has (hfs : ∀ g ∈ fs, f.Apart g) (hgs : ∀ g ∈ gs, f.Apart g) (hj : f.Has j) :
    reverseAll m (fs ++ f :: gs) j = m (f.mirror j) := by
  rw [reverseAll_append, reverseAll_cons, reverseAll_of_not_has fun g hg => hgs g hg j hj,
    reverse_of_has hj, reverseAll_of_not_has fun g hg => hfs g hg _ (has_mirror hj)]

/-- Each field of the list is turned around and nothing else has changed. -/
structure Reversed (fs : List Field) (m m' : Nat → α) : Prop where
  field : ∀ f ∈ fs, ∀ j, f.Has j → m' j = m (f.mirror j)
  rest : ∀ j, (∀ f ∈ fs, ¬ f.Has j) → m' j = m j

theorem reversed_reverseAll (h : fs.Pairwise Apart) : Reversed fs m (reverseAll m fs) where
  field f hf j hj := by
    obtain ⟨A, B, rfl⟩ := List.append_of_mem hf
    rw [List.pairwise_append, List.pairwise_cons] at h
    exact reverseAll_of_has (fun g hg => (h.2.2 g hg f (by simp)).symm) h.2.1.1 hj
  rest _ hj := reverseAll_of_not_has hj

theorem Reversed.congr (h : Reversed fs m m') (hmem : ∀ f, f ∈ gs ↔ f ∈ fs) : Reversed gs m m' where
  field f hf := h.field f ((hmem f).1 hf)
  rest j hj := h.rest j fun f hf => hj f ((hmem f).2 hf)

/-- Turning the fields around twice is nothing. -/
theorem Reversed.twice (h : Reversed fs m m') (h' : Reversed fs m' m'') : m'' = m := by
  funext j
  by_cases hj : ∃ f ∈ fs, f.Has j
  · obtain ⟨f, hf, hj⟩ := hj
    rw [h'.field f hf j hj, h.field f hf _ (has_mirror hj), mirror_mirror hj]
  · have hnone : ∀ f ∈ fs, ¬ f.Has j := fun f hf hfj => hj ⟨f, hf, hfj⟩
    rw [h'.rest j hnone, h.rest j hnone]

end Field

end Bsdi.Lib
