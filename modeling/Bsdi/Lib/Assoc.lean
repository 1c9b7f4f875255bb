import Mathlib.Data.List.Nodup

/-!
# Lists of pairs as finite maps
-/

namespace Bsdi.Lib

variable {κ β : Type*} {l l₁ l₂ : List (κ × β)} {m : κ → Option β} {k : κ} {d : β}

/-- The list has the pairs of the map, each key once. -/
structure Represents (l : List (κ × β)) (m : κ → Option β) : Prop where
  nodup : (l.map Prod.fst).Nodup
  mem : ∀ k d, m k = some d ↔ (k, d) ∈ l

theorem represents_nil : Represents ([] : List (κ × β)) fun _ => none :=
  ⟨List.nodup_nil, by simp⟩

namespace Represents

theorem eq_none (h : Represents l m) (hk : k ∉ l.map Prod.fst) : m k = none := by
  rw [Option.eq_none_iff_forall_ne_some]
  intro d hd
  exact hk (List.mem_map_of_mem ((h.mem k d).1 hd))

variable [DecidableEq κ]

theorem insert (h : Represents (l₁ ++ l₂) m) (hk : k ∉ (l₁ ++ l₂).map Prod.fst) :
    Represents (l₁ ++ (k, d) :: l₂) (Function.update m k (some d)) where
  nodup := by
    have hperm : ((l₁ ++ (k, d) :: l₂).map Prod.fst).Perm (k :: (l₁ ++ l₂).map Prod.fst) :=
      List.perm_middle.map Prod.fst
    exact hperm.nodup_iff.2 (List.nodup_cons.2 ⟨hk, h.nodup⟩)
  mem k' d' := by
    have hmem : (k', d') ∈ l₁ ++ (k, d) :: l₂ ↔ (k', d') = (k, d) ∨ (k', d') ∈ l₁ ++ l₂ := by
      simp only [List.mem_append, List.mem_cons]
      tauto
    rw [hmem]
    by_cases hk' : k' = k
    · subst hk'
      have habsent : (k', d') ∉ l₁ ++ l₂ := fun hd => hk (List.mem_map_of_mem hd)
      simp only [Function.update_self, Option.some.injEq, Prod.mk.injEq, true_and, habsent, or_false]
      exact eq_comm
    · rw [Function.update_of_ne hk', h.mem]
      simp [hk']

theorem erase (h : Represents (l₁ ++ (k, d) :: l₂) m) :
    Represents (l₁ ++ l₂) (Function.update m k none) := by
  have hperm : ((l₁ ++ (k, d) :: l₂).map Prod.fst).Perm (k :: (l₁ ++ l₂).map Prod.fst) :=
    List.perm_middle.map Prod.fst
  obtain ⟨hk, hnodup⟩ := List.nodup_cons.1 (hperm.nodup_iff.1 h.nodup)
  refine ⟨hnodup, fun k' d' => ?_⟩
  by_cases hk' : k' = k
  · subst hk'
    simp only [Function.update_self, reduceCtorEq, false_iff]
    exact fun hd => hk (List.mem_map_of_mem hd)
  · rw [Function.update_of_ne hk', h.mem]
    simp [hk']

/-- A pair takes the place of another one of the same key. -/
theorem replace (d' : β) (h : Represents (l₁ ++ (k, d) :: l₂) m) :
    Represents (l₁ ++ (k, d') :: l₂) (Function.update m k (some d')) := by
  have hperm : ((l₁ ++ (k, d) :: l₂).map Prod.fst).Perm (k :: (l₁ ++ l₂).map Prod.fst) :=
    List.perm_middle.map Prod.fst
  have hk := (List.nodup_cons.1 (hperm.nodup_iff.1 h.nodup)).1
  simpa using h.erase.insert (d := d') hk

end Represents

end Bsdi.Lib
