import Bsdi.Mergesort.Search
import Bsdi.Mergesort.Runs

/-!
# Merging two runs

The loop over two runs copies elements to the other array and keeps there what it has merged.
-/

namespace Bsdi.Mergesort

open Bsdi.Lib

variable {cmp : Elem → Elem → ℤ} {size n a b c e i j k r o step : ℕ} {mem mem' : Mem}
  {links data : ℕ} {s : Merging}

theorem copyLoop_spec (mem : Mem) {cnt src dst : ℕ} (h : src + cnt * step ≤ dst ∨ dst + cnt * step ≤
    src) :
    (∀ x < cnt * step, (copyLoop step cnt src dst mem).byte (dst + x) = mem.byte (src + x)) ∧
      ∀ x, (x < dst ∨ dst + cnt * step ≤ x) →
        (copyLoop step cnt src dst mem).byte x = mem.byte x := by
  induction cnt generalizing src dst mem with
  | zero => exact ⟨fun x hx => by omega, fun x _ => rfl⟩
  | succ cnt ih =>
    have hmul : (cnt + 1) * step = step + cnt * step := by rw [Nat.add_one_mul, Nat.add_comm]
    rw [hmul] at h ⊢
    have hlen : (slice mem.byte src step).length = step := length_slice
    have happart : src + step + cnt * step ≤ dst + step ∨ dst + step + cnt * step ≤ src + step := by
      omega
    obtain ⟨hin, hout⟩ := ih (mem.put dst (slice mem.byte src step)) happart
    rw [copyLoop]
    refine ⟨fun x hx => ?_, fun x hx => ?_⟩
    · rcases Nat.lt_or_ge x step with hlt | hge
      · rw [hout _ (Or.inl (by omega)), put_inside (hlen.symm ▸ hlt)]
        simp [slice]
      · obtain ⟨y, rfl⟩ := Nat.exists_eq_add_of_le hge
        rw [← Nat.add_assoc, hin y (by omega), put_outside (by rw [hlen]; omega), Nat.add_assoc]
    · rw [hout _ (by omega), put_outside (by rw [hlen]; omega)]

theorem copy_elements {cnt m : ℕ} (hp : Places size n links data) (hcnt : cnt * step = m * size)
    (hi : i + m ≤ n) (ho : o + m ≤ n) :
    elts size (copyLoop step cnt (cell size data i) (cell size links o) mem) links o m =
        elts size mem data i m ∧
      Within size links o (o + m) mem
        (copyLoop step cnt (cell size data i) (cell size links o) mem) := by
  have hparts := hp.parts i o hi ho
  rw [cell_add, cell_add] at hparts
  obtain ⟨hin, hout⟩ := copyLoop_spec mem (hcnt.symm ▸ hparts)
  rw [hcnt] at hin hout
  refine ⟨List.ext_getElem (by rw [length_elts, length_elts]) fun x h₁ _ => ?_, fun x hx => ?_⟩
  · rw [length_elts] at h₁
    rw [getElem_elts, getElem_elts]
    refine List.map_congr_left fun y hy => ?_
    rw [List.mem_range] at hy
    have hlt : x * size + y < m * size := by
      have : (x + 1) * size ≤ m * size := Nat.mul_le_mul_right size h₁
      rw [Nat.add_one_mul] at this
      omega
    rw [cell_add, cell_add, Nat.add_assoc, hin _ hlt, Nat.add_assoc]
  · rw [cell_add] at hx
    exact hout x hx

theorem copyList_spec (mem : Mem) (hp : Places size n links data) (hstep : step ∣ size)
    (hir : i < r)
    (hr : r ≤ n) (ho : o + (r - i) ≤ n) :
    elts size (copyList step (cell size data i) (cell size links o) (cell size data r) mem) links o
        (r - i) = elts size mem data i (r - i) ∧
      Within size links o (o + (r - i)) mem
        (copyList step (cell size data i) (cell size links o) (cell size data r) mem) := by
  obtain ⟨d, hd⟩ := hstep
  have hpos : 0 < step ∧ 0 < d := by
    have := hp.pos
    rw [hd] at this
    exact ⟨Nat.pos_of_mul_pos_right this, Nat.pos_of_mul_pos_left this⟩
  have hbytes : cell size data r - cell size data i = (r - i) * d * step := by
    rw [cell, cell, Nat.add_sub_add_left, ← Nat.sub_mul, Nat.mul_assoc, Nat.mul_comm d, ← hd]
  have hcnt : (cell size data r - cell size data i + step - 1) / step = (r - i) * d := by
    rw [hbytes, Nat.add_sub_assoc hpos.1, Nat.mul_comm, Nat.mul_add_div hpos.1,
      Nat.div_eq_of_lt (Nat.sub_lt hpos.1 Nat.one_pos), Nat.add_zero]
  have hone : 1 ≤ (r - i) * d := Nat.mul_pos (by omega) hpos.2
  rw [copyList, hcnt, Nat.max_eq_right hone]
  exact copy_elements hp (by rw [Nat.mul_assoc, Nat.mul_comm d, ← hd]) (by omega) ho

theorem copyElt_spec (mem : Mem) (hp : Places size n links data) (hstep : step ∣ size) (hi : i < n)
    (ho : o < n) :
    elts size (copyElt size step (cell size data i) (cell size links o) mem) links o 1 =
        elts size mem data i 1 ∧
      Within size links o (o + 1) mem
        (copyElt size step (cell size data i) (cell size links o) mem) :=
  copy_elements hp (by rw [Nat.div_mul_cancel hstep, Nat.one_mul]) hi ho

theorem Within.same_other (h : Within size links a o mem mem') (hp : Places size n links data)
    (ho : o ≤ n) (hj : j ≤ n) : Same mem mem' (cell size data i) (cell size data j) :=
  fun x h₁ h₂ => h x (by
    have := hp.parts i a hj ho
    omega)

theorem round_copy {mem₀ : Mem} (hp : Places size n links data) (hstep : step ∣ size)
    (hw : Within size links a o mem₀ mem) (hao : a ≤ o) (hkr : k < r) (hr : r ≤ n) (he : e < n)
    (ho : o + (r - k) < n) :
    elts size (copyElt size step (cell size data e) (cell size links (o + (r - k)))
        (copyList step (cell size data k) (cell size links o) (cell size data r) mem)) links a
        (o + (r - k) + 1 - a) =
        elts size mem links a (o - a) ++ elts size mem₀ data k (r - k) ++
          [elt size mem₀ (cell size data e)] ∧
      Within size links a (o + (r - k) + 1) mem₀
        (copyElt size step (cell size data e) (cell size links (o + (r - k)))
          (copyList step (cell size data k) (cell size links o) (cell size data r) mem)) := by
  obtain ⟨hlist, hw₁⟩ := copyList_spec mem hp hstep hkr hr ho.le
  generalize copyList step (cell size data k) (cell size links o) (cell size data r) mem = mem₁ at *
  obtain ⟨helt, hw₂⟩ := copyElt_spec mem₁ hp hstep he ho
  generalize copyElt size step (cell size data e) (cell size links (o + (r - k))) mem₁ = mem₂ at *
  have hw₀₁ : Within size links a (o + (r - k)) mem₀ mem₁ :=
    (hw.mono (Nat.le_refl a) (Nat.le_add_right _ _)).trans (hw₁.mono hao (Nat.le_refl _))
  have hlist' : elts size mem₂ links o (r - k) = elts size mem₀ data k (r - k) := by
    rw [elts_congr (hw₂.same_before (Nat.le_refl _)), hlist,
      elts_data (hw.same_other hp (by omega) hr) hkr.le]
  have hout : elts size mem₂ links a (o - a) = elts size mem links a (o - a) := by
    rw [elts_data (hw₂.same_before (cell_le (by omega))) hao,
      elts_data (hw₁.same_before (Nat.le_refl _)) hao]
  have hlast : elts size mem₂ links (o + (r - k)) 1 = [elt size mem₀ (cell size data e)] := by
    rw [helt]
    exact elts_congr (n := 1) (hw₀₁.same_other hp ho.le he)
  refine ⟨?_, (hw₀₁.mono (Nat.le_refl a) (Nat.le_succ _)).trans
    (hw₂.mono (by omega) (Nat.le_refl _))⟩
  have hs₁ : elts size mem₂ links a (o + (r - k) + 1 - a) =
      elts size mem₂ links a (o - a) ++ elts size mem₂ links o (o + (r - k) + 1 - o) :=
    elts_split hao (by omega)
  have hs₂ : elts size mem₂ links o (o + (r - k) + 1 - o) =
      elts size mem₂ links o (r - k) ++ elts size mem₂ links (o + (r - k)) 1 := by
    rw [Nat.add_assoc, Nat.add_sub_cancel_left, elts_append]
  rw [hs₁, hs₂, hout, hlist', hlast, List.append_assoc]

section Ordered

variable (h : Comparison cmp) {q : ℕ}

include h

theorem Border.first (hb : Border cmp size mem q (-1) data k j r)
    (hs : Sorted cmp (elts size mem data k (j - k))) :
    (∀ x ∈ elts size mem data k (r - k), cmp x (elt size mem q) ≤ 0) ∧
      ∀ x ∈ elts size mem data r (j - r), 0 < cmp x (elt size mem q) := by
  have hkr := hb.lt
  rw [elts_split hkr.le hb.le] at hs
  obtain ⟨hfirst, hlast, -⟩ := sorted_append.1 hs
  refine ⟨fun x hx => ?_, fun x hx => ?_⟩
  · have hbefore : -1 < cmp (elt size mem q) (elt size mem (cell size data (r - 1))) := hb.before
    exact h.trans _ _ _ (le_last h hkr hfirst hx) ((h.sign _ _).2 (by omega))
  · have hrj := lt_of_mem_elts hx
    have hstop : ¬-1 < cmp (elt size mem q) (elt size mem (cell size data r)) := hb.stop hrj
    have hlt : cmp (elt size mem q) (elt size mem (cell size data r)) < 0 := by omega
    exact h.pos_of_le_of_pos (first_le h hrj hlast hx) (h.pos_iff.2 hlt)

theorem Border.second (hb : Border cmp size mem q 0 data k j r)
    (hs : Sorted cmp (elts size mem data k (j - k))) :
    (∀ x ∈ elts size mem data k (r - k), 0 < cmp (elt size mem q) x) ∧
      ∀ x ∈ elts size mem data r (j - r), cmp (elt size mem q) x ≤ 0 := by
  have hkr := hb.lt
  rw [elts_split hkr.le hb.le] at hs
  obtain ⟨hfirst, hlast, -⟩ := sorted_append.1 hs
  refine ⟨fun x hx => ?_, fun x hx => ?_⟩
  · exact h.pos_of_pos_of_le hb.before (le_last h hkr hfirst hx)
  · have hrj := lt_of_mem_elts hx
    exact h.trans _ _ _ (Int.not_lt.1 (hb.stop hrj)) (first_le h hrj hlast hx)

end Ordered

/-- Where the loop is: elements `i` to `b` and `j` to `c` of the two runs are left, and what has
been merged is in the other array up to `o`. -/
structure Merge (cmp : Elem → Elem → ℤ) (size links data : ℕ) (mem : Mem) (a b c : ℕ) (s : Merging)
    (i j o : ℕ) : Prop where
  f1 : s.f1 = cell size data i
  f2 : s.f2 = cell size data j
  tp2 : s.tp2 = cell size links o
  count : o + b = i + j
  ai : a ≤ i
  ib : i ≤ b
  bj : b ≤ j
  jc : j ≤ c
  within : Within size links a o mem s.mem
  first : Sorted cmp (elts size s.mem links a (o - a) ++ elts size mem data i (b - i))
  second : Sorted cmp (elts size s.mem links a (o - a) ++ elts size mem data j (c - j))
  stably : Stably cmp (elts size s.mem links a (o - a) ++ elts size mem data i (b - i) ++
    elts size mem data j (c - j)) (elts size mem data a (c - a))

theorem cell_diff :
    cell size links o + (cell size data r - cell size data i) = cell size links (o + (r - i)) := by
  rw [cell_add, cell, cell, cell, Nat.add_sub_add_left, Nat.sub_mul]

theorem elts_first (size : ℕ) (mem : Mem) (data : ℕ) (hij : i < j) : elts size mem data i (j - i) =
    elt size mem (cell size data i) :: elts size mem data (i + 1) (j - (i + 1)) := by
  rw [show j - i = j - (i + 1) + 1 by omega, elts_cons]

section Loop

variable (h : Comparison cmp) (hp : Places size n links data) (hstep : step ∣ size) (hc : c ≤ n)

include h hp hstep hc

theorem mergeStep_spec (hm : Merge cmp size links data mem a b c s i j o) (hi : i < b) (hj : j < c)
    :
    ∃ i' j' o', i + j < i' + j' ∧ Merge cmp size links data mem a b c
      (mergeStep cmp size step (cell size data b) (cell size data c) s) i' j' o' := by
  obtain ⟨hf1, hf2, htp2, hcount, hai, hib, hbj, hjc, hwithin, hfirst, hsecond, hstably⟩ := hm
  have hao : a ≤ o := by omega
  have hon : o ≤ n := by omega
  have hsame : ∀ x < n, elt size s.mem (cell size data x) = elt size mem (cell size data x) :=
    fun x hx => elt_congr (by
      rw [← cell_succ]
      exact hwithin.same_other hp hon hx)
  obtain ⟨-, hrun₁, hout₁⟩ := sorted_append.1 hfirst
  obtain ⟨-, hrun₂, hout₂⟩ := sorted_append.1 hsecond
  have hq₁ := elts_first size mem data hi
  have hq₂ := elts_first size mem data hj
  have hdata : ∀ x y, x ≤ y → y ≤ n → elts size s.mem data x (y - x) = elts size mem data x (y - x)
    :=
    fun x y hxy hy => elts_data (hwithin.same_other hp hon hy) hxy
  rw [mergeStep, hf1, hf2, htp2]
  by_cases hcmp : cmp (elt size s.mem (cell size data i)) (elt size s.mem (cell size data j)) ≤ 0
  · rw [if_pos hcmp]
    have hstart : Before cmp size s.mem (cell size data j) (-1) (cell size data i) := by
      have := (h.sign _ _).1 hcmp
      exact Int.lt_of_lt_of_le (by decide) this
    obtain ⟨r, hr, hb⟩ := search_spec hp.pos s.big hi hstart
    generalize search cmp size s.mem (cell size data j) (-1) s.big (cell size data i)
      (cell size data b) = found at hr ⊢
    obtain ⟨p, big⟩ := found
    obtain rfl : p = cell size data r := hr
    have hir := hb.lt
    have hrb := hb.le
    obtain ⟨hx, hrest⟩ := hb.first h (by rwa [hdata i b hib (by omega)])
    rw [hdata i r hir.le (by omega), hsame j (by omega)] at hx
    rw [hdata r b hrb (by omega), hsame j (by omega)] at hrest
    dsimp only
    rw [cell_diff, ← cell_succ, ← cell_succ]
    obtain ⟨hcopy, hwithin'⟩ := round_copy (k := i) (r := r) (e := j) hp hstep hwithin hao hir
      (by omega) (by omega) (by omega)
    have hsplit : elts size mem data i (b - i) =
        elts size mem data i (r - i) ++ elts size mem data r (b - r) := elts_split hir.le hrb
    refine ⟨r, j + 1, o + (r - i) + 1, by omega, rfl, rfl, rfl, by omega, by omega, hrb, by omega,
      hj, hwithin', ?_, ?_, ?_⟩
    · rw [hcopy]
      rw [hsplit] at hfirst
      exact sorted_merge_rest hfirst (fun x hx => hout₂ x hx _ (hq₂ ▸ List.mem_cons_self)) hx
        fun x hx => h.le_of_lt (hrest x hx)
    · rw [hcopy]
      rw [hsplit] at hfirst
      rw [hq₂] at hsecond
      exact sorted_merge_from h hfirst hsecond hx
    · rw [hcopy]
      rw [hsplit, hq₂] at hstably
      exact (stably_merge h hrest).trans hstably
  · rw [if_neg hcmp]
    have hstart : Before cmp size s.mem (cell size data i) 0 (cell size data j) := Int.not_le.1 hcmp
    obtain ⟨r, hr, hb⟩ := search_spec hp.pos s.big hj hstart
    generalize search cmp size s.mem (cell size data i) 0 s.big (cell size data j)
      (cell size data c) = found at hr ⊢
    obtain ⟨p, big⟩ := found
    obtain rfl : p = cell size data r := hr
    have hjr := hb.lt
    have hrc := hb.le
    obtain ⟨hx, hrest⟩ := hb.second h (by rwa [hdata j c hjc (by omega)])
    rw [hdata j r hjr.le (by omega), hsame i (by omega)] at hx
    rw [hdata r c hrc (by omega), hsame i (by omega)] at hrest
    dsimp only
    rw [cell_diff, ← cell_succ, ← cell_succ]
    obtain ⟨hcopy, hwithin'⟩ := round_copy (k := j) (r := r) (e := i) hp hstep hwithin hao hjr
      (by omega) (by omega) (by omega)
    have hsplit : elts size mem data j (c - j) =
        elts size mem data j (r - j) ++ elts size mem data r (c - r) := elts_split hjr.le hrc
    refine ⟨i + 1, r, o + (r - j) + 1, by omega, rfl, rfl, rfl, by omega, by omega, hi, by omega,
      hrc, hwithin', ?_, ?_, ?_⟩
    · rw [hcopy]
      rw [hsplit] at hsecond
      rw [hq₁] at hfirst
      exact sorted_merge_from h hsecond hfirst fun x hx' => h.le_of_lt (hx x hx')
    · rw [hcopy]
      rw [hsplit] at hsecond
      exact sorted_merge_rest hsecond (fun x hx => hout₁ x hx _ (hq₁ ▸ List.mem_cons_self))
        (fun x hx' => h.le_of_lt (hx x hx')) hrest
    · rw [hcopy]
      rw [hsplit, hq₁] at hstably
      refine (stably_merge_right h fun x hx' y hy => ?_).trans hstably
      have hle : cmp (elt size mem (cell size data i)) y ≤ 0 :=
        first_le h hi hrun₁ (hq₁ ▸ hy)
      exact (h.pos_of_le_of_pos hle (hx x hx')).ne'

theorem mergeLoop_spec {fuel : ℕ} (hm : Merge cmp size links data mem a b c s i j o)
    (hfuel : b + c < i + j + fuel) :
    ∃ s', mergeLoop cmp size step (cell size data b) (cell size data c) fuel s = s' ∧
      s'.tp2 = cell size links c ∧ Within size links a c mem s'.mem ∧
      Sorted cmp (elts size s'.mem links a (c - a)) ∧
      Stably cmp (elts size s'.mem links a (c - a)) (elts size mem data a (c - a)) := by
  refine ⟨_, rfl, ?_⟩
  induction fuel generalizing s i j o with
  | zero =>
    have := hm.ib
    have := hm.jc
    omega
  | succ fuel ih =>
    rw [mergeLoop]
    by_cases hboth : s.f1 < cell size data b ∧ s.f2 < cell size data c
    · rw [if_pos hboth]
      rw [hm.f1, hm.f2, cell_lt_iff hp.pos, cell_lt_iff hp.pos] at hboth
      obtain ⟨i', j', o', hlt, hm'⟩ := mergeStep_spec h hp hstep hc hm hboth.1 hboth.2
      exact ih hm' (by omega)
    · rw [if_neg hboth]
      obtain ⟨hf1, hf2, htp2, hcount, hai, hib, hbj, hjc, hwithin, hfirst, hsecond, hstably⟩ := hm
      rw [hf1, hf2, cell_lt_iff hp.pos, cell_lt_iff hp.pos] at hboth
      have hao : a ≤ o := by omega
      -- what is left of a run ends where the two runs do
      have hrest : ∀ k r, k < r → r ≤ n → o + (r - k) = c →
          Sorted cmp (elts size s.mem links a (o - a) ++ elts size mem data k (r - k)) →
          Stably cmp (elts size s.mem links a (o - a) ++ elts size mem data k (r - k))
            (elts size mem data a (c - a)) →
          let mem' := copyList step (cell size data k) (cell size links o) (cell size data r) s.mem
          Within size links a c mem mem' ∧ Sorted cmp (elts size mem' links a (c - a)) ∧
            Stably cmp (elts size mem' links a (c - a)) (elts size mem data a (c - a)) := by
        intro k r hkr hrn hend hs hst
        obtain ⟨hlist, hw⟩ := copyList_spec (i := k) s.mem hp hstep hkr hrn (hend ▸ hc)
        have hoc : o ≤ c := hend ▸ Nat.le_add_right o _
        have hsub : c - o = r - k := by omega
        rw [hend] at hw
        have hall : elts size (copyList step (cell size data k) (cell size links o)
            (cell size data r) s.mem) links a (c - a) =
            elts size s.mem links a (o - a) ++ elts size mem data k (r - k) := by
          rw [elts_split hao hoc, elts_data (hw.same_before (Nat.le_refl _)) hao, hsub, hlist,
            elts_data (hwithin.same_other hp (by omega) hrn) hkr.le]
        refine ⟨(hwithin.mono (Nat.le_refl a) hoc).trans (hw.mono hao (Nat.le_refl c)), ?_, ?_⟩
        · rwa [hall]
        · rwa [hall]
      have hnil : ∀ k, elts size mem data k (k - k) = [] := fun k => by
        rw [Nat.sub_self]
        rfl
      by_cases hleft₂ : s.f2 < cell size data c
      · rw [if_pos hleft₂, hf2, htp2]
        rw [hf2, cell_lt_iff hp.pos] at hleft₂
        obtain rfl : i = b := by omega
        rw [hnil, List.append_nil] at hstably
        exact ⟨by rw [cell_diff, show o + (c - j) = c by omega],
          hrest j c hleft₂ hc (by omega) hsecond hstably⟩
      · rw [if_neg hleft₂]
        rw [hf2, cell_lt_iff hp.pos] at hleft₂
        obtain rfl : j = c := by omega
        rw [hnil, List.append_nil] at hstably
        by_cases hleft₁ : s.f1 < cell size data b
        · rw [if_pos hleft₁, hf1, htp2]
          rw [hf1, cell_lt_iff hp.pos] at hleft₁
          exact ⟨by rw [cell_diff, show o + (b - i) = j by omega],
            hrest i b hleft₁ (by omega) (by omega) hfirst hstably⟩
        · rw [if_neg hleft₁]
          rw [hf1, cell_lt_iff hp.pos] at hleft₁
          obtain rfl : i = b := by omega
          obtain rfl : o = j := by omega
          rw [hnil, List.append_nil] at hfirst hstably
          exact ⟨htp2, hwithin, hfirst, hstably⟩

end Loop

end Bsdi.Mergesort
