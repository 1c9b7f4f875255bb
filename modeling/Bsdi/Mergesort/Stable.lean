import Bsdi.Mergesort.Sort

/-!
# Merge sort is a stable sort

For every array and every comparison by a total preorder.
-/

namespace Bsdi.Mergesort

open Bsdi.Lib

variable {cmp : Elem → Elem → ℤ} {size n base scratch : ℕ} {mem : Mem}

/-- What `malloc` promises about the scratch array of `nmemb * size + PSIZE` bytes. -/
structure Allocated (size n base scratch : ℕ) : Prop where
  aligned : scratch % psize = 0
  apart : cell size base n ≤ scratch ∨ cell size scratch n + psize ≤ base
  room : cell size scratch n + psize ≤ 2 ^ 32
  room_base : cell size base n < 2 ^ 32

theorem Allocated.places (ha : Allocated size n base scratch) (hsize : 2 ≤ size) :
    Places size n scratch base := by
  obtain ⟨-, hapart, hroom, hbase⟩ := ha
  rw [psize] at hapart hroom
  exact ⟨hsize, by omega, by omega, hbase⟩

theorem setup_small (mem : Mem) (h : Comparison cmp) (hn : 1 ≤ n) (hsmall : n ≤ 5)
    (hsize : 2 ≤ size)
    (ha : Allocated size n base scratch) :
    ∃ mem', setup cmp size base scratch n mem = mem' ∧ link mem' scratch = cell size scratch n ∧
      Sorted cmp (elts size mem' base 0 n) ∧
      Stably cmp (elts size mem' base 0 n) (elts size mem base 0 n) := by
  obtain ⟨haligned, hapart, hroom, hbase⟩ := ha
  rw [psize] at haligned hapart hroom
  obtain ⟨hsorted, hstably, -⟩ :=
    insertionsort_spec (a := base) h mem (by omega : 0 < size) hn
  rw [setup, if_pos hsmall]
  generalize insertionsort cmp size base n mem = mem₁ at *
  have heval : eval scratch = scratch := by
    simp only [eval, psize]
    omega
  have hdata : elts size (setLink mem₁ scratch (scratch + n * size)) base 0 n =
      elts size mem₁ base 0 n := by
    refine elts_congr fun x h₁ h₂ => setLink_outside ?_
    rw [heval]
    rw [cell_zero] at h₁
    rw [Nat.zero_add] at h₂
    have : scratch ≤ cell size scratch n := Nat.le_add_right _ _
    omega
  refine ⟨_, rfl, link_setLink (by rw [← cell]; omega), ?_, ?_⟩
  · rwa [hdata]
  · rwa [hdata]

theorem copyStep_dvd : copyStep size base ∣ size := by
  rw [copyStep]
  by_cases hint : size % isize = 0 ∧ base % isize = 0
  · rw [if_pos hint]
    exact Nat.dvd_of_mod_eq_zero hint.1
  · rw [if_neg hint]
    exact Nat.one_dvd size

theorem elts_put {a b : ℕ} :
    elts size (mem.put b (slice mem.byte a (n * size))) b 0 n = elts size mem a 0 n := by
  have hlen : (slice mem.byte a (n * size)).length = n * size := length_slice
  refine List.ext_getElem (by rw [length_elts, length_elts]) fun x h₁ _ => ?_
  rw [length_elts] at h₁
  rw [getElem_elts, getElem_elts, Nat.zero_add]
  refine List.map_congr_left fun y hy => ?_
  rw [List.mem_range] at hy
  have hlt : x * size + y < n * size := by
    have : (x + 1) * size ≤ n * size := Nat.mul_le_mul_right size h₁
    rw [Nat.add_one_mul] at this
    omega
  rw [cell, cell, Nat.add_assoc, put_inside (hlen.symm ▸ hlt)]
  simp [slice, Nat.add_assoc]

/-- What the two parts of the state say, before each round of the outer loop and after each round
of a pass. -/
def Always (cmp : Elem → Elem → ℤ) (size n base : ℕ) (mem : Mem) (s : Sorting) : Prop :=
  Delimits cmp size s.mem s.list2 s.list1 0 n ∧
    Stably cmp (elts size s.mem s.list1 0 n) (elts size mem base 0 n) ∧
    (¬s.Done size n → ∀ rounds, Intact cmp size n base mem s
      (mergePass cmp size (copyStep size base) s.list1 s.list2 (s.list2 + n * size) rounds s.list2
        s.list1 s.list2 s.big s.mem).2)

/-- `mergesort` leaves the elements in order, equal ones in their old order, and in between the
links always delimit runs that make up the whole array. -/
theorem mergesort_stable (h : Comparison cmp) (hn : 1 ≤ n) (hsize : psize / 2 ≤ size)
    (ha : Allocated size n base scratch) :
    (∃ mem', mergesort cmp size base scratch n mem = some mem' ∧
      Sorted cmp (elts size mem' base 0 n) ∧
      Stably cmp (elts size mem' base 0 n) (elts size mem base 0 n)) ∧
    ∀ k, Always cmp size n base mem
      (passes cmp size (copyStep size base) n k (start cmp size base scratch n mem)) := by
  have htwo : 2 ≤ size := hsize
  have hp := ha.places htwo
  have hne : base ≠ scratch := fun heq => by
    have := hp.apart
    have := Nat.mul_pos hn hp.pos
    rw [cell, cell, heq] at *
    omega
  rw [mergesort, if_neg (Nat.not_lt.2 hsize)]
  dsimp only
  rcases Nat.lt_or_ge 5 n with hlarge | hsmall
  · obtain ⟨⟨r, hthreaded⟩, hstably, -⟩ := setup_spec mem h hp ha.aligned hlarge
    have hstart : Sound cmp size n base scratch mem r (start cmp size base scratch n mem) :=
      ⟨hp, Or.inl ⟨rfl, rfl⟩, hthreaded, hstably⟩
    refine ⟨?_, fun k => ?_⟩
    · have hruns := hthreaded.runs.two_mul_le
      obtain ⟨r', hs, hzero⟩ := Sound.passes h copyStep_dvd n hstart
      obtain rfl := hzero (by omega)
      generalize passes cmp size (copyStep size base) n n (start cmp size base scratch n mem) = s
        at hs ⊢
      -- one run is left
      have hsorted : Sorted cmp (elts size s.mem s.list1 0 n) := by
        obtain ⟨j, hrun, ⟨-, rfl⟩ | ⟨r', hr, -⟩⟩ := hs.threaded.uncons
        · exact hrun.sorted
        · omega
      rcases hs.arrays with ⟨h₁, h₂⟩ | ⟨h₁, h₂⟩
      · rw [if_neg (h₂ ▸ hne), ← h₁]
        exact ⟨_, rfl, hsorted, h₁ ▸ hs.stably⟩
      · rw [if_pos h₂.symm]
        refine ⟨_, rfl, ?_, ?_⟩
        · rw [h₂, elts_put]
          exact hsorted
        · rw [h₂, elts_put]
          exact hs.stably
    · obtain ⟨r', hs, -⟩ := Sound.passes h copyStep_dvd k hstart
      exact ⟨hs.threaded.runs.delimits, hs.stably, fun _ rounds => hs.intact h copyStep_dvd rounds⟩
  · obtain ⟨mem₁, hsetup, hlink, hsorted, hstably⟩ :=
      setup_small mem h hn hsmall htwo ha
    have hdone : (start cmp size base scratch n mem).Done size n := by
      rw [Sorting.Done, start, hsetup]
      exact hlink
    have hpasses : ∀ k, passes cmp size (copyStep size base) n k
        (start cmp size base scratch n mem) = start cmp size base scratch n mem := fun k => by
      cases k with
      | zero => rfl
      | succ k => rw [passes, if_pos hdone]
    refine ⟨?_, fun k => ?_⟩
    · rw [hpasses, start, if_neg hne, hsetup]
      exact ⟨mem₁, rfl, hsorted, hstably⟩
    · rw [hpasses]
      refine ⟨?_, ?_, fun hnot => absurd hdone hnot⟩
      · rw [start, hsetup]
        refine Delimits.cons hn ?_ ?_ Delimits.nil
        · rw [cell_zero]
          exact hlink
        · exact hsorted
      · rw [start, hsetup]
        exact hstably

theorem mergesort_stable_three :
    (∃ mem', mergesort (fun x y => (x.headD 0).toNat - (y.headD 0).toNat) 2 1000 2000 3
        (Mem.put ⟨fun _ => 0⟩ 1000 [2, 1, 1, 2, 2, 3]) = some mem' ∧
      Sorted (fun x y => (x.headD 0).toNat - (y.headD 0).toNat) (elts 2 mem' 1000 0 3) ∧
      Stably (fun x y => (x.headD 0).toNat - (y.headD 0).toNat) (elts 2 mem' 1000 0 3)
        (elts 2 (Mem.put ⟨fun _ => 0⟩ 1000 [2, 1, 1, 2, 2, 3]) 1000 0 3)) ∧
    ∀ k, Always (fun x y => (x.headD 0).toNat - (y.headD 0).toNat) 2 3 1000
      (Mem.put ⟨fun _ => 0⟩ 1000 [2, 1, 1, 2, 2, 3])
      (passes (fun x y => (x.headD 0).toNat - (y.headD 0).toNat) 2 (copyStep 2 1000) 3 k
        (start (fun x y => (x.headD 0).toNat - (y.headD 0).toNat) 2 1000 2000 3
          (Mem.put ⟨fun _ => 0⟩ 1000 [2, 1, 1, 2, 2, 3]))) :=
  mergesort_stable ⟨fun x y => by omega, fun x y z hxy hyz => by omega⟩ (by decide) (by decide)
    ⟨by decide, Or.inl (by decide), by decide, by decide⟩

end Bsdi.Mergesort
