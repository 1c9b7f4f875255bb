import Bsdi.Stdlib.Partition

/-!
# `qsort` sorts

After the partition the equal elements at the ends are exchanged into the middle, and the two other
parts are sorted by themselves.
-/

namespace Bsdi.Stdlib

open Bsdi.Lib Bsdi.Mergesort Function

variable {cmp : ℕ → Elem → Elem → ℤ} {c : Elem → Elem → ℤ} {A B : ℕ → Elem} {v : Elem}
  {es lo i k l e n m N t ia ib ic id x y : ℕ} {mem mem' : Mem}

/-- Of the elements from `i` up to `e`, the first `x` are less than `v`, the last `y` are greater,
and the others are equal. -/
structure Parts (c : Elem → Elem → ℤ) (A : ℕ → Elem) (v : Elem) (i e x y : ℕ) : Prop where
  less : ∀ k, i ≤ k → k < i + x → c (A k) v < 0
  equal : ∀ k, i + x ≤ k → k < e - y → c (A k) v = 0
  greater : ∀ k, e - y ≤ k → k < e → 0 < c (A k) v

theorem front_rows (hc : Comparison c) (h : Divided c A i e ia ib ic id)
    (hspan : Span i e ia ib ic id) (hm : m = min (ia - i) (ib - ia)) :
    (∀ k, i ≤ k → k < i + (ib - ia) → c (swapRows A i (ib - m) m k) (A i) < 0) ∧
      (∀ k, i + (ib - ia) ≤ k → k < ib → c (swapRows A i (ib - m) m k) (A i) = 0) ∧
      ∀ k, ib ≤ k → swapRows A i (ib - m) m k = A k := by
  have hia := hspan.front
  have hab := hspan.first
  have hself : c (A i) (A i) = 0 := le_antisymm (hc.le_self _) ((hc.sign _ _).1 (hc.le_self _))
  have hfront : ∀ k, i ≤ k → k < ia → c (A k) (A i) = 0 := by
    intro k hk hka
    rcases Nat.eq_or_lt_of_le hk with rfl | hlt
    · exact hself
    · exact h.front k hlt hka
  have hrows : ∀ k, swapRows A i (ib - m) m k =
      if i ≤ k ∧ k < i + m then A (k - i + (ib - m))
      else if ib - m ≤ k ∧ k < ib - m + m then A (k - (ib - m) + i) else A k := fun k =>
    swapRows_apply (by omega)
  refine ⟨fun k hk hkx => ?_, fun k hk hkb => ?_, fun k hk => ?_⟩
  · rw [hrows]
    by_cases h₁ : i ≤ k ∧ k < i + m
    · rw [if_pos h₁]
      exact h.less _ (by omega) (by omega)
    · rw [if_neg h₁, if_neg (by omega)]
      exact h.less k (by omega) (by omega)
  · rw [hrows, if_neg (by omega)]
    by_cases h₂ : ib - m ≤ k ∧ k < ib - m + m
    · rw [if_pos h₂]
      exact hfront _ (by omega) (by omega)
    · rw [if_neg h₂]
      exact hfront k (by omega) (by omega)
  · rw [hrows, if_neg (by omega), if_neg (by omega)]

theorem back_rows (h : Divided c A i e ia ib ic id) (hspan : Span i e ia ib ic id) (hlt : ic < ib)
    (hB : ∀ k, ib ≤ k → B k = A k) (hm : m = min (id - ic) (e - id - 1)) :
    (∀ k, ib ≤ k → k < e - (id - ic) → c (swapRows B ib (e - m) m k) (A i) = 0) ∧
      (∀ k, e - (id - ic) ≤ k → k < e → 0 < c (swapRows B ib (e - m) m k) (A i)) ∧
      ∀ k, k < ib → swapRows B ib (e - m) m k = B k := by
  have hcd := hspan.second
  have hde := hspan.back
  have hmeet := h.meet
  have hrows : ∀ k, swapRows B ib (e - m) m k =
      if ib ≤ k ∧ k < ib + m then B (k - ib + (e - m))
      else if e - m ≤ k ∧ k < e - m + m then B (k - (e - m) + ib) else B k := fun k =>
    swapRows_apply (by omega)
  refine ⟨fun k hk hke => ?_, fun k hk hke => ?_, fun k hk => ?_⟩
  · rw [hrows]
    by_cases h₁ : ib ≤ k ∧ k < ib + m
    · rw [if_pos h₁, hB _ (by omega)]
      exact h.back _ (by omega) (by omega)
    · rw [if_neg h₁, if_neg (by omega), hB k hk]
      exact h.back k (by omega) (by omega)
  · rw [hrows, if_neg (by omega)]
    by_cases h₂ : e - m ≤ k ∧ k < e - m + m
    · rw [if_pos h₂, hB _ (by omega)]
      exact h.greater _ (by omega) (by omega)
    · rw [if_neg h₂, hB k (by omega)]
      exact h.greater k (by omega) (by omega)
  · rw [hrows, if_neg (by omega), if_neg (by omega)]

theorem parts_of_divided (hc : Comparison c) (h : Divided c A i e ia ib ic id)
    (hspan : Span i e ia ib ic id) (hlt : ic < ib) {m₁ m₂ : ℕ}
    (hm₁ : m₁ = min (ia - i) (ib - ia)) (hm₂ : m₂ = min (id - ic) (e - id - 1)) :
    Parts c (swapRows (swapRows A i (ib - m₁) m₁) ib (e - m₂) m₂) (A i) i e (ib - ia) (id - ic) :=
      by
  have hia := hspan.front
  have hab := hspan.first
  have hmeet := h.meet
  obtain ⟨hless, hequal, hsame⟩ := front_rows hc h hspan hm₁
  obtain ⟨hequal', hgreater, hsame'⟩ := back_rows h hspan hlt hsame hm₂
  refine ⟨fun k hk hkx => ?_, fun k hk hke => ?_, hgreater⟩
  · rw [hsame' k (by omega)]
    exact hless k hk hkx
  · by_cases hkb : k < ib
    · rw [hsame' k hkb]
      exact hequal k hk hkb
    · exact hequal' k (not_lt.1 hkb) hke

theorem Parts.moved_first (h : Parts c (val es lo mem) v i e x y) (hxy : i + x + y ≤ e)
    (hmoved : Moved es lo i (i + x) mem mem') : Parts c (val es lo mem') v i e x y := by
  refine ⟨fun k hk hkx => ?_, fun k hk hke => ?_, fun k hk hke => ?_⟩
  · obtain ⟨z, hz, hzx, heq⟩ := hmoved.exists_val hk hkx
    exact heq ▸ h.less z hz hzx
  · rw [val_within hmoved.within (Or.inr hk)]
    exact h.equal k hk hke
  · rw [val_within hmoved.within (Or.inr (by omega))]
    exact h.greater k hk hke

theorem Parts.moved_last (h : Parts c (val es lo mem) v i e x y) (hxy : i + x + y ≤ e)
    (hmoved : Moved es lo (e - y) e mem mem') : Parts c (val es lo mem') v i e x y := by
  refine ⟨fun k hk hkx => ?_, fun k hk hke => ?_, fun k hk hke => ?_⟩
  · rw [val_within hmoved.within (Or.inl (by omega))]
    exact h.less k hk hkx
  · rw [val_within hmoved.within (Or.inl hke)]
    exact h.equal k hk hke
  · obtain ⟨z, hz, hze, heq⟩ := hmoved.exists_val hk hke
    exact heq ▸ h.greater z hz hze

theorem Parts.sorted (hc : Comparison c) (h : Parts c A v i e x y) (hx : SortedOn c A i (i + x))
    (hy : SortedOn c A (e - y) e) : SortedOn c A i e := by
  have hmiddle : ∀ k l, c (A k) v ≤ 0 → 0 ≤ c (A l) v → c (A k) (A l) ≤ 0 := fun k l hk hl =>
    hc.trans _ _ _ hk ((hc.sign _ _).2 hl)
  have hupper : ∀ k, i + x ≤ k → k < e → 0 ≤ c (A k) v := by
    intro k hk hke
    by_cases hky : k < e - y
    · exact (h.equal k hk hky).ge
    · exact (h.greater k (not_lt.1 hky) hke).le
  intro k l hk hkl hl
  by_cases hkx : k < i + x
  · by_cases hlx : l < i + x
    · exact hx k l hk hkl hlx
    · exact hmiddle k l (h.less k hk hkx).le (hupper l (not_lt.1 hlx) hl)
  by_cases hky : k < e - y
  · exact hmiddle k l (h.equal k (not_lt.1 hkx) hky).le (hupper l (by omega) hl)
  · exact hy k l (not_lt.1 hky) hkl hl

variable (cmp c lo) in
theorem blocks_spec (ht : Swaptype es t) (hes : 0 < es) (he : e ≤ N) (hspan : Span i e ia ib ic id)
    (hlt : ic < ib) (s : Proc) :
    ∃ s₁ s₂, vecswap es lo (cell es lo N) (cell es lo i)
        (cell es lo ib - min (ia - i) (ib - ia) * es) (min (ia - i) (ib - ia) * es) t s = some s₁ ∧
      vecswap es lo (cell es lo N) (cell es lo ib)
        (cell es lo e - min (id - ic) (e - id - 1) * es) (min (id - ic) (e - id - 1) * es) t s₁ =
          some s₂ ∧ Moved es lo i e s.mem s₂.mem ∧
      (Answers cmp c → Divided c (val es lo s.mem) i e ia ib ic id →
        Parts c (val es lo s₂.mem) (val es lo s.mem i) i e (ib - ia) (id - ic)) := by
  generalize hm₁ : min (ia - i) (ib - ia) = m₁
  generalize hm₂ : min (id - ic) (e - id - 1) = m₂
  have h₁ : m₁ ≤ ia - i ∧ m₁ ≤ ib - ia := hm₁ ▸ ⟨Nat.min_le_left _ _, Nat.min_le_right _ _⟩
  have h₂ : m₂ ≤ id - ic ∧ m₂ ≤ e - id - 1 := hm₂ ▸ ⟨Nat.min_le_left _ _, Nat.min_le_right _ _⟩
  have hfirst : i + m₁ ≤ ib ∧ i ≤ ib - m₁ ∧ ib - m₁ + m₁ = ib ∧ m₁ ≤ ib := by
    have := hspan.front
    have := hspan.first
    omega
  have hlast : ib + m₂ ≤ e ∧ i ≤ e - m₂ ∧ e - m₂ + m₂ = e ∧ m₂ ≤ e := by
    have := hspan.lower
    have := hspan.second
    have := hspan.back
    have := hspan.meet
    have := hspan.upper
    omega
  have hib := hspan.upper
  have hi := hspan.front.le.trans hspan.first
  rw [cell_sub_mul hfirst.2.2.2, cell_sub_mul hlast.2.2.2]
  obtain ⟨s₁, hvec₁, hval₁, hmoved₁⟩ := vecswap_elements lo s ht hes m₁ (N := N)
    ((hfirst.1.trans hib).trans he) (hfirst.2.2.1.le.trans (hib.trans he))
  obtain ⟨s₂, hvec₂, hval₂, hmoved₂⟩ := vecswap_elements lo s₁ ht hes m₂ (N := N)
    (hlast.1.trans he) (hlast.2.2.1.le.trans he)
  refine ⟨s₁, s₂, hvec₁, hvec₂, (hmoved₁ i e (Nat.le_refl i) (hfirst.1.trans hib) hfirst.2.1
    (hfirst.2.2.1.le.trans hib)).trans (hmoved₂ i e hi hlast.1 hlast.2.1 hlast.2.2.1.le),
    fun hc h => ?_⟩
  rw [hval₂, hval₁]
  exact parts_of_divided hc.comparison h hspan hlt hm₁.symm hm₂.symm

theorem calls_spec {call : ℕ → ℕ → Proc → Option Proc} (hcall : ∀ k m s, k + m ≤ e → m < n →
      ∃ s', call k m s = some s' ∧ Moved es lo k (k + m) s.mem s'.mem ∧
        (Answers cmp c → SortedOn c (val es lo s'.mem) k (k + m)))
    (hxy : i + x + y ≤ e) (hx : x < n) (hy : y < n) (s : Proc) :
    ∃ s₁ s₂, call i x s = some s₁ ∧ call (e - y) y s₁ = some s₂ ∧ Moved es lo i e s.mem s₂.mem ∧
      (Answers cmp c → Parts c (val es lo s.mem) v i e x y → SortedOn c (val es lo s₂.mem) i e) :=
        by
  have hxe : i + x ≤ e := (Nat.le_add_right _ y).trans hxy
  have hye : i + x ≤ e - y := Nat.le_sub_of_add_le hxy
  have hend : e - y + y = e := Nat.sub_add_cancel ((Nat.le_add_left y _).trans hxy)
  obtain ⟨s₁, hfirst, hmoved₁, hsorted₁⟩ := hcall i x s hxe hx
  obtain ⟨s₂, hsecond, hmoved₂, hsorted₂⟩ := hcall (e - y) y s₁ hend.le hy
  rw [hend] at hmoved₂ hsorted₂
  refine ⟨s₁, s₂, hfirst, hsecond, (hmoved₁.mono (Nat.le_refl i) (Nat.le_add_right i x) hxe).trans
    (hmoved₂.mono ((Nat.le_add_right i x).trans hye) (Nat.sub_le e y) (Nat.le_refl e)),
    fun hc hparts => ?_⟩
  have hparts₂ := (hparts.moved_first hxy hmoved₁).moved_last hxy hmoved₂
  refine hparts₂.sorted hc.comparison ((hsorted₁ hc).congr fun k _ hk => ?_) (hsorted₂ hc)
  exact val_within hmoved₂.within (Or.inl (hk.trans_le hye))

theorem cell_sub (h : k ≤ l) : cell es lo l - cell es lo k = (l - k) * es := by
  obtain ⟨d, rfl⟩ := Nat.exists_eq_add_of_le h
  rw [cell_add, Nat.add_sub_cancel_left, Nat.add_sub_cancel_left]

variable (cmp c lo) in
theorem qsortLoop_spec {fuel : ℕ} (hes : 0 < es) (hN : i + n ≤ N) (hfuel : n < fuel) (s : Proc) :
    ∃ s', qsortLoop cmp es lo (cell es lo N) fuel (cell es lo i) n s = some s' ∧
      Moved es lo i (i + n) s.mem s'.mem ∧
      (Answers cmp c → SortedOn c (val es lo s'.mem) i (i + n)) := by
  induction fuel generalizing i n s with
  | zero => omega
  | succ fuel ih =>
    have ht := swaptype_swapinit (cell es lo i) es
    generalize hswaptype : swapinit (cell es lo i) es = t at ht
    have hinsert : ∀ s, ∃ s', insertOuter cmp es lo (cell es lo N) (cell es lo i) t (n - 1) 1 s =
          some s' ∧ Moved es lo i (i + n) s.mem s'.mem ∧
        (Answers cmp c → SortedOn c (val es lo s'.mem) i (i + n)) := by
      intro s
      by_cases h0 : n = 0
      · subst h0
        exact ⟨s, rfl, Moved.refl, fun _ => sortedOn_one (by omega)⟩
      · have hend : i + 1 + (n - 1) = i + n := by omega
        obtain ⟨s', houter, hmoved, hsorted⟩ := insertOuter_spec cmp c lo (i := i) (k := 1)
          (m := n - 1) (N := N) ht hes (by omega) s
        rw [hend] at hmoved hsorted
        exact ⟨s', houter, hmoved, fun hc => hsorted hc (sortedOn_one (Nat.le_refl _))⟩
    rw [qsortLoop, hswaptype]
    by_cases hsmall : n < 7
    · rw [if_pos hsmall]
      exact hinsert s
    rw [if_neg hsmall]
    obtain ⟨r, s₁, hpivot, ⟨hir, hrn⟩, hmem₁⟩ := pivot_spec cmp es lo (not_lt.1 hsmall) hN s
    obtain ⟨s₂, hswap, hval₂, hmoved₂⟩ := swap_elements lo s₁ ht hes (N := N) (k := i) (l := r)
      (by omega) (by omega)
    have hspan : Span i (i + n) (i + 1) (i + 1) (i + (n - 1)) (i + (n - 1)) :=
      ⟨by omega, by omega, by omega, by omega, by omega, by omega, by omega⟩
    have hfuel' : i + n < i + 1 + (n + 1) := by omega
    obtain ⟨ia, ib, ic, id, cnt, s₃, hpart, hspan₃, hlt, hmoved₃, hdiv⟩ :=
      partition_spec cmp c lo ht hes hN false s₂ hspan hfuel'
    have hmoved : Moved es lo i (i + n) s.mem s₃.mem := by
      refine Moved.trans ?_ hmoved₃
      rw [← hmem₁]
      exact hmoved₂ i (i + n) (by omega) (by omega) hir hrn
    have hdivided : Answers cmp c → Divided c (val es lo s₃.mem) i (i + n) ia ib ic id := fun hc =>
      hdiv hc ⟨fun k h₁ h₂ => by omega, fun k h₁ h₂ => by omega, fun k h₁ h₂ => by omega,
        fun k h₁ h₂ => by omega, by omega⟩
    have hstart : partAt es lo (i + 1) (i + 1) (i + (n - 1)) (i + (n - 1)) false s₂ =
        ⟨cell es lo i + es, cell es lo i + es, cell es lo i + (n - 1) * es,
          cell es lo i + (n - 1) * es, false, s₂⟩ := by
      rw [partAt, cell_succ, cell_add]
    rw [hstart] at hpart
    rw [hpivot, Option.bind_eq_bind, Option.bind_some]
    dsimp only
    rw [hswap, Option.bind_eq_bind, Option.bind_some, hpart, Option.bind_eq_bind, Option.bind_some]
    by_cases hcnt : cnt = false
    · -- no elements were exchanged
      obtain ⟨s', houter, hmoved', hsorted⟩ := hinsert s₃
      refine ⟨s', ?_, hmoved.trans hmoved', hsorted⟩
      rw [← houter]
      exact if_pos hcnt
    have hcnt' : ¬(partAt es lo ia ib ic id cnt s₃).swapCnt = false := hcnt
    rw [if_neg hcnt']
    have hia := hspan₃.front
    have hab := hspan₃.first
    have hmeet := hspan₃.meet
    have hic := hspan₃.lower
    have hcd := hspan₃.second
    have hde := hspan₃.back
    have hbe := hspan₃.upper
    have hpn : cell es lo i + n * es = cell es lo (i + n) := cell_add.symm
    generalize hp : partAt es lo ia ib ic id cnt s₃ = p
    have hpb : p.pb = cell es lo ib := hp ▸ rfl
    have hs : p.s = s₃ := hp ▸ rfl
    have hleft : p.pa - cell es lo i = (ia - i) * es := hp ▸ cell_sub hia.le
    have hless : cell es lo ib - p.pa = (ib - ia) * es := hp ▸ cell_sub hab
    have hgreater : p.pd - p.pc = (id - ic) * es := hp ▸ cell_sub hcd
    have hright : cell es lo (i + n) - p.pd - es = (i + n - id - 1) * es := by
      have hpd : p.pd = cell es lo id := hp ▸ rfl
      rw [hpd, cell_sub (by omega), Nat.sub_mul _ 1, Nat.one_mul]
    obtain ⟨s₄, s₅, hvec₁, hvec₂, hmoved₅, hparts⟩ :=
      blocks_spec cmp c lo ht hes hN hspan₃ hlt s₃
    simp only [hpn, hs, hpb, hleft, hless, hgreater, hright, Nat.mul_min_mul_right,
      Nat.mul_div_cancel _ hes]
    rw [hvec₁, Option.bind_some, hvec₂, Option.bind_some]
    have hmoved' : Moved es lo i (i + n) s.mem s₅.mem := hmoved.trans hmoved₅
    obtain ⟨hxy, hx, hy⟩ : i + (ib - ia) + (id - ic) ≤ i + n ∧ ib - ia < n ∧ id - ic < n := by
      clear * - hia hab hmeet hic hcd hde hbe hlt
      omega
    have hlast : cell es lo (i + n) - (id - ic) * es = cell es lo (i + n - (id - ic)) :=
      cell_sub_mul (hy.le.trans (Nat.le_add_left n i))
    rw [hlast]
    -- the two recursive calls
    have hcall : ∀ (k m : ℕ) (s : Proc), k + m ≤ i + n → m < n → ∃ s',
        (if es < m * es then qsortLoop cmp es lo (cell es lo N) fuel (cell es lo k) m s
          else some s) = some s' ∧ Moved es lo k (k + m) s.mem s'.mem ∧
        (Answers cmp c → SortedOn c (val es lo s'.mem) k (k + m)) := by
      intro k m s hkm hmn
      by_cases hone : es < m * es
      · rw [if_pos hone]
        exact ih (hkm.trans hN) (hmn.trans_le (Nat.le_of_lt_succ hfuel)) s
      · have hle : m ≤ 1 := Nat.le_of_mul_le_mul_right ((not_lt.1 hone).trans_eq
          (Nat.one_mul es).symm) hes
        rw [if_neg hone]
        exact ⟨s, rfl, Moved.refl, fun _ => sortedOn_one (Nat.add_le_add_left hle k)⟩
    obtain ⟨s₆, s₇, hfirst, hsecond, hmoved₇, hsorted⟩ :=
      calls_spec (v := val es lo s₃.mem i) hcall hxy hx hy s₅
    refine ⟨s₇, ?_, hmoved'.trans hmoved₇, fun hc => hsorted hc (hparts hc (hdivided hc))⟩
    rw [← hsecond]
    by_cases hone : es < (ib - ia) * es
    · rw [if_pos hone] at hfirst ⊢
      rw [hfirst]
      rfl
    · rw [if_neg hone] at hfirst ⊢
      obtain rfl := Option.some.inj hfirst
      rfl

theorem elts_eq_vals : elts es mem lo 0 n = vals (val es lo mem) 0 n := by
  rw [vals, ← List.range_eq_range', Nat.sub_zero]
  refine List.map_congr_left fun k _ => ?_
  rw [Nat.zero_add]
  rfl

/-- Whatever `cmp` answers, `qsort` ends, compares and exchanges elements of the array only, and
leaves a permutation of it; if `cmp` answers by a total preorder, the array is sorted. -/
theorem qsort_sorted (cmp : ℕ → Elem → Elem → ℤ) (a n : ℕ) (hes : 1 ≤ es) (s : Proc) :
    ∃ s', qsort cmp a n es s = some s' ∧
      (elts es s'.mem a 0 n).Perm (elts es s.mem a 0 n) ∧ Within es a 0 n s.mem s'.mem ∧
      ∀ c, Answers cmp c → Sorted c (elts es s'.mem a 0 n) := by
  have hcall : ∀ c, ∃ s', qsort cmp a n es s = some s' ∧ Moved es a 0 (0 + n) s.mem s'.mem ∧
      (Answers cmp c → SortedOn c (val es a s'.mem) 0 (0 + n)) := by
    intro c
    have h := qsortLoop_spec cmp c a hes (Nat.zero_add n).le (Nat.lt_succ_self n) s
    rwa [cell_zero] at h
  obtain ⟨s', hqsort, hmoved, -⟩ := hcall fun _ _ => 0
  rw [Nat.zero_add] at hmoved
  refine ⟨s', hqsort, ?_, hmoved.within, fun c hc => ?_⟩
  · rw [elts_eq_vals, elts_eq_vals]
    exact hmoved.perm
  · obtain ⟨s'', hqsort', -, hsorted⟩ := hcall c
    rw [hqsort] at hqsort'
    obtain rfl := Option.some.inj hqsort'
    rw [Nat.zero_add] at hsorted
    rw [elts_eq_vals]
    exact (hsorted hc).sorted

theorem qsort_sorted_eight :
    ∃ s', qsort (fun _ x y => (x.headD 0).toNat - (y.headD 0).toNat) 1001 8 2
        ⟨Mem.put ⟨fun _ => 0⟩ 1001 [2, 1, 1, 2, 4, 3, 3, 9, 2, 2, 7, 7, 0, 1, 5, 5], 0⟩ = some s' ∧
      (elts 2 s'.mem 1001 0 8).Perm (elts 2
        (Mem.put ⟨fun _ => 0⟩ 1001 [2, 1, 1, 2, 4, 3, 3, 9, 2, 2, 7, 7, 0, 1, 5, 5]) 1001 0 8) ∧
      Within 2 1001 0 8
        (Mem.put ⟨fun _ => 0⟩ 1001 [2, 1, 1, 2, 4, 3, 3, 9, 2, 2, 7, 7, 0, 1, 5, 5]) s'.mem ∧
      ∀ c, Answers (fun _ x y => (x.headD 0).toNat - (y.headD 0).toNat) c →
        Sorted c (elts 2 s'.mem 1001 0 8) :=
  qsort_sorted _ 1001 8 (by decide) _

end Bsdi.Stdlib
