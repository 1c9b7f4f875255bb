import Mathlib.Data.List.Chain
import Mathlib.Data.List.Nodup
import Mathlib.Data.List.Perm.Subperm
import Bsdi.Lib.Linked
import Bsdi.Ed.Commands

/-!
# The buffer as a list of lines

When the lines of a list are linked in both directions, and how segments are tied together. Every
command redirects links by tying the end of one segment to the start of another.
-/

namespace Bsdi.Ed

open Bsdi.Lib

abbrev Seg (mem : Cell → Option Line) (p : Option Line) (L : List Line) (n : Option Line) : Prop :=
  Linked some (fun l p n => mem (.above l) = p ∧ mem (.below l) = n) p L n

abbrev first (L : List Line) : Option Line := headKey some none L

abbrev last (L : List Line) : Option Line := lastKey some none L

def tie (mem : Cell → Option Line) (p n : Option Line) : Cell → Option Line
  | .above l => if n = some l then p else mem (.above l)
  | .below l => if p = some l then n else mem (.below l)
  | .mark i => mem (.mark i)

def SameLinks (mem mem' : Cell → Option Line) : Prop :=
  ∀ l, mem' (.above l) = mem (.above l) ∧ mem' (.below l) = mem (.below l)

variable {mem mem' : Cell → Option Line} {A B L N P R S : List Line} {p n x y : Option Line}
variable {l k start fini : Line}

@[simp]
theorem tie_above : tie mem p n (.above l) = if n = some l then p else mem (.above l) := rfl

@[simp]
theorem tie_below : tie mem p n (.below l) = if p = some l then n else mem (.below l) := rfl

theorem SameLinks.refl (mem : Cell → Option Line) : SameLinks mem mem := fun _ => ⟨rfl, rfl⟩

theorem SameLinks.trans {m₁ m₂ m₃ : Cell → Option Line} (h : SameLinks m₁ m₂)
    (h' : SameLinks m₂ m₃) : SameLinks m₁ m₃ :=
  fun l => ⟨(h' l).1.trans (h l).1, (h' l).2.trans (h l).2⟩

theorem headKey_eq_some : headKey some n L = some l ↔ (∃ L', L = l :: L') ∨ L = [] ∧ n = some l :=
    by
  cases L with
  | nil => simp
  | cons k L => simp [eq_comm]

theorem first_eq_some : first L = some l ↔ ∃ L', L = l :: L' := by
  simp [first, headKey_eq_some]

theorem lastKey_concat : lastKey some p (L ++ [l]) = some l := by
  simp

theorem last_eq_some : last L = some l ↔ ∃ L', L = L' ++ [l] := by
  induction L using List.reverseRecOn with
  | nil => simp
  | append_singleton L k ih =>
    rw [last, lastKey_concat]
    simp [eq_comm]

theorem last_mem (h : last L = some l) : l ∈ L := by
  obtain ⟨L', rfl⟩ := last_eq_some.1 h
  simp

theorem first_mem (h : first L = some l) : l ∈ L := by
  obtain ⟨L', rfl⟩ := first_eq_some.1 h
  simp

theorem headKey_of_first (h : first L = some l) : headKey some n L = some l := by
  obtain ⟨L', rfl⟩ := first_eq_some.1 h
  rfl

theorem lastKey_of_last (h : last L = some l) : lastKey some p L = some l := by
  obtain ⟨L', rfl⟩ := last_eq_some.1 h
  exact lastKey_concat

theorem first_eq_none : first L = none ↔ L = [] := by
  cases L <;> simp

theorem last_eq_none : last L = none ↔ L = [] := by
  induction L using List.reverseRecOn with
  | nil => simp
  | append_singleton L k ih => rw [last, lastKey_concat]; simp

theorem seg_append :
    Seg mem p (A ++ B) n ↔ Seg mem p A (headKey some n B) ∧ Seg mem (lastKey some p A) B n :=
  linked_append

theorem Seg.congr (h : Seg mem p L n)
    (hm : ∀ l ∈ L, mem' (.above l) = mem (.above l) ∧ mem' (.below l) = mem (.below l)) :
    Seg mem' p L n := by
  apply h.imp
  intro l hl p n hc
  exact ⟨(hm l hl).1.trans hc.1, (hm l hl).2.trans hc.2⟩

theorem Seg.same (h : Seg mem p L n) (hm : SameLinks mem mem') : Seg mem' p L n :=
  h.congr fun l _ => hm l

theorem Seg.above_first (h : Seg mem p L n) (hl : first L = some l) : mem (.above l) = p := by
  obtain ⟨L', rfl⟩ := first_eq_some.1 hl
  exact h.1.1

theorem Seg.below_last (h : Seg mem p L n) (hl : last L = some l) : mem (.below l) = n := by
  obtain ⟨L', rfl⟩ := last_eq_some.1 hl
  exact (linked_append_cons.1 h).2.1.2

theorem Seg.unique {q : Option Line} (h : Seg mem p A none) (h' : Seg mem q B none)
    (hf : first A = first B) : A = B := by
  induction A generalizing p q B with
  | nil => exact (first_eq_none.1 hf.symm).symm
  | cons l A ih =>
    obtain ⟨B', rfl⟩ := first_eq_some.1 hf.symm
    rw [ih h.2 h'.2 (h.1.2.symm.trans h'.1.2)]

theorem Seg.retie_last (h : Seg mem none A x) (hd : A.Nodup)
    (hA : ∀ l ∈ A, mem' (.above l) = mem (.above l))
    (hB : ∀ l ∈ A, mem' (.below l) = if last A = some l then n else mem (.below l)) :
    Seg mem' none A n := by
  induction A using List.reverseRecOn with
  | nil => trivial
  | append_singleton A a _ =>
    have ha : last (A ++ [a]) = some a := lastKey_concat
    rw [ha] at hB
    apply Linked.set_next h
    · intro l hl p n hc
      have hne : a ≠ l := by
        rintro rfl
        exact (List.nodup_append.1 hd).2.2 a hl a (by simp) rfl
      rw [hA l (by simp [hl]), hB l (by simp [hl]), if_neg (by simpa using hne)]
      exact hc
    · intro p hc
      rw [hA a (by simp), hB a (by simp), if_pos rfl]
      exact ⟨hc.1, rfl⟩

theorem Seg.retie_first (h : Seg mem y L n) (hd : L.Nodup)
    (hA : ∀ l ∈ L, mem' (.above l) = if first L = some l then p else mem (.above l))
    (hB : ∀ l ∈ L, mem' (.below l) = mem (.below l)) : Seg mem' p L n := by
  cases L with
  | nil => trivial
  | cons b L =>
    apply Linked.set_prev h
    · intro n hc
      rw [hA b (by simp), hB b (by simp), if_pos headKey_cons]
      exact ⟨rfl, hc.2⟩
    · intro l hl p n hc
      have hne : b ≠ l := by
        rintro rfl
        simp [hl] at hd
      rw [hA l (by simp [hl]), hB l (by simp [hl]), if_neg (by simpa using hne)]
      exact hc

theorem Seg.tie (hA : Seg mem none A x) (hB : Seg mem y B n) (hd : (A ++ B).Nodup)
    (hn : B = [] → n = none) : Seg (tie mem (last A) (headKey some n B)) none (A ++ B) n := by
  rw [List.nodup_append] at hd
  rw [seg_append]
  constructor
  · apply hA.retie_last hd.1
    · intro l hl
      rw [tie_above, if_neg]
      intro hc
      rcases headKey_eq_some.1 hc with ⟨B', rfl⟩ | ⟨hnil, hc⟩
      · exact hd.2.2 l hl l (by simp) rfl
      · simp [hn hnil] at hc
    · intro l _
      rw [tie_below]
  · apply hB.retie_first hd.2.1
    · intro l hl
      obtain ⟨b, B', rfl⟩ := List.exists_cons_of_ne_nil (List.ne_nil_of_mem hl)
      rfl
    · intro l hl
      rw [tie_below, if_neg]
      intro hc
      exact hd.2.2 l (last_mem hc) l hl rfl

theorem Seg.tie_other (h : Seg mem x L y) (hp : ∀ l ∈ L, p ≠ some l) (hn : ∀ l ∈ L, n ≠ some l) :
    Seg (Ed.tie mem p n) x L y := by
  apply h.congr
  intro l hl
  rw [tie_above, tie_below, if_neg (hn l hl), if_neg (hp l hl)]
  exact ⟨rfl, rfl⟩

/-- The lines from one to another by the links below them. -/
structure Range (mem : Cell → Option Line) (R : List Line) (start fini : Line) : Prop where
  nodup : R.Nodup
  first_eq : first R = some start
  last_eq : last R = some fini
  chain : R.IsChain fun k l => mem (.below k) = some l

theorem Seg.isChain (h : Seg mem p L n) : L.IsChain fun k l => mem (.below k) = some l := by
  induction L generalizing p with
  | nil => exact .nil
  | cons l L ih =>
    cases L with
    | nil => exact .singleton l
    | cons k L => exact .cons_cons h.1.2 (ih h.2)

theorem Seg.range (h : Seg mem p R n) (hd : R.Nodup) (hs : first R = some start)
    (hf : last R = some fini) : Range mem R start fini :=
  ⟨hd, hs, hf, h.isChain⟩

theorem Range.congr (h : Range mem R start fini) (hm : ∀ l ∈ R, mem' (.below l) = mem (.below l)) :
    Range mem' R start fini := by
  refine ⟨h.nodup, h.first_eq, h.last_eq, ?_⟩
  apply h.chain.imp_of_mem_imp
  intro k l hk _ hc
  rw [hm k hk, hc]

theorem Range.walk_eq (h : Range mem R start fini) {m : Nat} (hm : R.length ≤ m) :
    Editor.walk mem m start fini = R := by
  obtain ⟨hd, hs, hf, hc⟩ := h
  induction R generalizing start m with
  | nil => simp at hs
  | cons l L ih =>
    obtain rfl : l = start := by simpa using hs
    cases m with
    | zero => simp at hm
    | succ m =>
      rw [Editor.walk]
      cases L with
      | nil =>
        obtain rfl : l = fini := by simpa using hf
        rw [if_pos rfl]
      | cons k L =>
        have hfk : last (k :: L) = some fini := by simpa using hf
        have hne : l ≠ fini := by
          rintro rfl
          exact (List.nodup_cons.1 hd).1 (last_mem hfk)
        rw [List.isChain_cons_cons] at hc
        rw [if_neg hne, hc.1]
        simp only
        rw [ih (by simpa using hm) (List.nodup_cons.1 hd).2 rfl hfk hc.2]

theorem length_le_of_lt {m : Nat} (hd : L.Nodup) (h : ∀ l ∈ L, l < m) : L.length ≤ m := by
  have hsub : L ⊆ List.range m := fun l hl => List.mem_range.2 (h l hl)
  simpa using (hd.subperm hsub).length_le

end Bsdi.Ed
