import Bsdi.Stdlib.Bins
import Mathlib.Algebra.Order.BigOperators.Group.Finset

/-!
# The deal

The strings go to the bins of their weights. `r_sort_a` exchanges them in place: it takes one from
the first bin that is not in order and brings strings home until one belongs where the first was
taken from. `r_sort_b` copies the array and deals from its end, which is stable.
-/

namespace Bsdi.Stdlib

open Bsdi.Lib Function

variable {w : ℕ → ℕ} {A B B₀ : ℕ → ℕ} {a an aj c d i lo hi m n r z : ℕ} {top count : ℕ → ℕ}
  {R : List ℕ → List ℕ → Prop}

def weights (w : ℕ → ℕ) (B₀ : ℕ → ℕ) (a an : ℕ) : List ℕ := (vals B₀ a an).map w

/-- The bin of `c` begins here. -/
def binStart (w : ℕ → ℕ) (B₀ : ℕ → ℕ) (a an c : ℕ) : ℕ := a + start (weights w B₀ a an) c

theorem binStart_succ (c : ℕ) : binStart w B₀ a an (c + 1) =
    binStart w B₀ a an c + (weights w B₀ a an).count c := by
  rw [binStart, start_succ, ← Nat.add_assoc, ← binStart]

theorem binStart_mono (h : c ≤ d) : binStart w B₀ a an c ≤ binStart w B₀ a an d :=
  Nat.add_le_add_left (start_mono h) a

theorem le_binStart : a ≤ binStart w B₀ a an c := Nat.le_add_right _ _

theorem binStart_le (h : a ≤ an) : binStart w B₀ a an c ≤ an := by
  have hle : start (weights w B₀ a an) c ≤ (weights w B₀ a an).length := List.countP_le_length
  rw [weights, List.length_map, length_vals, ← weights] at hle
  rw [binStart]
  omega

theorem binStart_lt (h : c ∈ weights w B₀ a an) :
    binStart w B₀ a an c < binStart w B₀ a an (c + 1) := by
  rw [binStart_succ]
  exact Nat.lt_add_of_pos_right (List.count_pos_iff.2 h)

theorem mem_weights (hperm : (vals B a an).Perm (vals B₀ a an)) (ha : a ≤ z) (hz : z < an) :
    w (B z) ∈ weights w B₀ a an :=
  List.mem_map_of_mem (hperm.subset (mem_vals_self ha hz))

structure Dealt (R : List ℕ → List ℕ → Prop) (w : ℕ → ℕ) (B₀ : ℕ → ℕ) (a an : ℕ) (A : ℕ → ℕ) :
    Prop where
  rel : R (vals A a an) (vals B₀ a an)
  out : ∀ x, x < a ∨ an ≤ x → A x = B₀ x
  bin : ∀ c x, binStart w B₀ a an c ≤ x → x < binStart w B₀ a an (c + 1) → w (A x) = c

theorem lt_count (hperm : (vals B a an).Perm (vals B₀ a an)) (hlo : a ≤ lo) (hlh : lo ≤ hi)
    (hhi : hi ≤ an) (hin : ∀ x, lo ≤ x → x < hi → w (B x) = c) (haz : a ≤ z) (hz : z < an)
    (hout : z < lo ∨ hi ≤ z) (hwz : w (B z) = c) :
    hi - lo < (weights w B₀ a an).count c := by
  have hcount : (weights w B₀ a an).count c =
      ((vals B a lo).map w).count c + ((vals B lo hi).map w).count c +
        ((vals B hi an).map w).count c := by
    rw [weights, ← (hperm.map w).count_eq, vals_append (hlo.trans hlh) hhi, vals_append hlo hlh,
      List.map_append, List.map_append, List.count_append, List.count_append]
  have hmiddle : ((vals B lo hi).map w).count c = hi - lo := by
    have hall : ∀ y ∈ (vals B lo hi).map w, c = y := by
      intro y hy
      obtain ⟨p, hp, rfl⟩ := List.mem_map.1 hy
      obtain ⟨x, hx, hxh, rfl⟩ := mem_vals.1 hp
      exact (hin x hx hxh).symm
    rw [List.count_eq_length.2 hall, List.length_map, length_vals]
  have hpos : ∀ j k, j ≤ z → z < k → 0 < ((vals B j k).map w).count c := fun j k hj hk =>
    List.count_pos_iff.2 (hwz ▸ List.mem_map_of_mem (mem_vals_self hj hk))
  rcases hout with hlt | hge
  · have := hpos a lo haz hlt
    omega
  · have := hpos hi an hge hz
    omega

/-- The bins before `aj` are in order, and each of the others ends with strings that are home. -/
structure Dealing (w : ℕ → ℕ) (B₀ : ℕ → ℕ) (a an aj : ℕ) (top : ℕ → ℕ) (B : ℕ → ℕ) : Prop where
  perm : (vals B a an).Perm (vals B₀ a an)
  out : ∀ x, x < a ∨ an ≤ x → B x = B₀ x
  split : ∀ c ∈ weights w B₀ a an, binStart w B₀ a an (c + 1) ≤ aj ∨ aj ≤ binStart w B₀ a an c
  full : ∀ c ∈ weights w B₀ a an, binStart w B₀ a an (c + 1) ≤ aj →
    ∀ x, binStart w B₀ a an c ≤ x → x < binStart w B₀ a an (c + 1) → w (B x) = c
  low : ∀ c ∈ weights w B₀ a an, aj ≤ binStart w B₀ a an c → binStart w B₀ a an c ≤ top c
  high : ∀ c ∈ weights w B₀ a an, aj ≤ binStart w B₀ a an c → top c ≤ binStart w B₀ a an (c + 1)
  home : ∀ c ∈ weights w B₀ a an, aj ≤ binStart w B₀ a an c →
    ∀ x, top c ≤ x → x < binStart w B₀ a an (c + 1) → w (B x) = c

namespace Dealing

theorem le_bin (h : Dealing w B₀ a an aj top B) (ha : a ≤ aj) (haj : aj < an) :
    aj ≤ binStart w B₀ a an (w (B aj)) := by
  have hmem := mem_weights (w := w) h.perm ha haj
  refine (h.split _ hmem).resolve_left fun hdone => ?_
  have hlt := lt_count h.perm le_binStart (binStart_mono (Nat.le_succ _))
    (binStart_le (ha.trans haj.le)) (h.full _ hmem hdone) ha haj (Or.inr hdone) rfl
  rw [binStart_succ, Nat.add_sub_cancel_left] at hlt
  exact Nat.lt_irrefl _ hlt

theorem bin_lt_top (h : Dealing w B₀ a an aj top B) (ha : a ≤ aj) (haj : aj < an)
    (hlt : aj < top (w (B aj))) : binStart w B₀ a an (w (B aj)) < top (w (B aj)) := by
  have hmem := mem_weights (w := w) h.perm ha haj
  have hbin := h.le_bin ha haj
  have hlow := h.low _ hmem hbin
  have hhigh := h.high _ hmem hbin
  have hcount := lt_count h.perm (le_binStart.trans hlow) hhigh (binStart_le (ha.trans haj.le))
    (h.home _ hmem hbin) ha haj (Or.inl hlt) rfl
  have hsucc := @binStart_succ w B₀ a an (w (B aj))
  omega

theorem bring (h : Dealing w B₀ a an aj top B) (ha : a ≤ aj) (haj : aj < an)
    (hlt : aj < top (w (B aj)) - 1) :
    Dealing w B₀ a an aj (update top (w (B aj)) (top (w (B aj)) - 1))
      (B ∘ Equiv.swap aj (top (w (B aj)) - 1)) := by
  have hmem := mem_weights (w := w) h.perm ha haj
  have hbin := h.le_bin ha haj
  have htop := h.bin_lt_top ha haj (by omega)
  have hhigh := h.high _ hmem hbin
  have han := @binStart_le w B₀ a an (w (B aj) + 1) (ha.trans haj.le)
  generalize hc : w (B aj) = c at *
  -- the bins lie apart
  have hapart : ∀ d x, d ≠ c → binStart w B₀ a an d ≤ x → x < binStart w B₀ a an (d + 1) →
      x ≠ top c - 1 := by
    intro d x hdc hx hxd heq
    rcases Nat.lt_or_gt_of_ne hdc with hlt' | hgt
    · have := @binStart_mono w B₀ a an (d + 1) c hlt'
      omega
    · have := @binStart_mono w B₀ a an (c + 1) d hgt
      omega
  refine ⟨(vals_swap ha haj (by omega) (by omega)).trans h.perm, fun x hx => ?_, h.split,
    fun d hd hdone x hx hxd => ?_, fun d hd hle => ?_, fun d hd hle => ?_,
    fun d hd hle x hx hxd => ?_⟩
  · rw [swap_other B (by omega) (by omega), h.out x hx]
  · rw [swap_other B (by omega) (by omega)]
    exact h.full d hd hdone x hx hxd
  · by_cases hdc : d = c
    · subst hdc
      rw [update_self]
      omega
    · rw [update_of_ne hdc]
      exact h.low d hd hle
  · by_cases hdc : d = c
    · subst hdc
      rw [update_self]
      omega
    · rw [update_of_ne hdc]
      exact h.high d hd hle
  · by_cases hdc : d = c
    · subst hdc
      rw [update_self] at hx
      by_cases hxk : x = top d - 1
      · rw [hxk, swap_right, hc]
      · rw [swap_other B (by omega) hxk]
        exact h.home d hd hle x (by omega) hxd
    · rw [update_of_ne hdc] at hx
      have hlow := h.low d hd hle
      have hxj : x ≠ aj := by
        rintro rfl
        exact hdc ((h.home d hd hle x hx hxd).symm.trans hc)
      rw [swap_other B hxj (hapart d x hdc (hlow.trans hx) hxd)]
      exact h.home d hd hle x hx hxd

theorem last (h : Dealing w B₀ a an aj top B) (ha : a ≤ aj) (haj : aj < an)
    (hle : top (w (B aj)) - 1 ≤ aj) :
    binStart w B₀ a an (w (B aj)) = aj ∧
      ∀ x, aj ≤ x → x < binStart w B₀ a an (w (B aj) + 1) → w (B x) = w (B aj) := by
  have hmem := mem_weights (w := w) h.perm ha haj
  have hbin := h.le_bin ha haj
  have hlow := h.low _ hmem hbin
  have hhome := h.home _ hmem hbin
  by_cases hlt : aj < top (w (B aj))
  · have htop := h.bin_lt_top ha haj hlt
    refine ⟨by omega, fun x hx hxc => ?_⟩
    by_cases hxj : x = aj
    · rw [hxj]
    · exact hhome x (by omega) hxc
  · exact ⟨by omega, fun x hx hxc => hhome x (by omega) hxc⟩

theorem next (h : Dealing w B₀ a an aj top B) (ha : a ≤ aj) (haj : aj < an)
    (hle : top (w (B aj)) - 1 ≤ aj) (k : ℕ) :
    Dealing w B₀ a an (aj + (weights w B₀ a an).count (w (B aj))) (update top (w (B aj)) k) B := by
  have hmem := mem_weights (w := w) h.perm ha haj
  obtain ⟨hstart, hall⟩ := h.last ha haj hle
  generalize hc : w (B aj) = c at *
  have hnext : aj + (weights w B₀ a an).count c = binStart w B₀ a an (c + 1) := by
    rw [binStart_succ, hstart]
  have hlt := binStart_lt hmem
  have hne : ∀ d, binStart w B₀ a an (c + 1) ≤ binStart w B₀ a an d → d ≠ c := by
    rintro d hd rfl
    omega
  rw [hnext]
  refine ⟨h.perm, h.out, fun d hd => ?_, fun d hd hdone => ?_, fun d hd hle => ?_,
    fun d hd hle => ?_, fun d hd hle => ?_⟩
  · rcases Nat.lt_or_ge c d with hcd | hdc
    · exact Or.inr (binStart_mono hcd)
    · exact Or.inl (binStart_mono (Nat.succ_le_succ hdc))
  · rcases Nat.lt_trichotomy d c with hdc | rfl | hcd
    · exact h.full d hd (hstart ▸ binStart_mono hdc)
    · exact fun x hx => hall x (hstart ▸ hx)
    · have h₁ := binStart_lt hd
      have h₂ := @binStart_mono w B₀ a an (c + 1) d hcd
      omega
  · rw [update_of_ne (hne d hle)]
    exact h.low d hd (by omega)
  · rw [update_of_ne (hne d hle)]
    exact h.high d hd (by omega)
  · rw [update_of_ne (hne d hle)]
    exact h.home d hd (by omega)

end Dealing

def places (w : ℕ → ℕ) (B₀ : ℕ → ℕ) (a an aj : ℕ) (top : ℕ → ℕ) : ℕ :=
  ∑ c ∈ (weights w B₀ a an).toFinset with aj ≤ binStart w B₀ a an c, (top c - binStart w B₀ a an c)

theorem places_bring (hmem : c ∈ weights w B₀ a an) (hbin : aj ≤ binStart w B₀ a an c)
    (htop : binStart w B₀ a an c < top c) :
    places w B₀ a an aj (update top c (top c - 1)) < places w B₀ a an aj top := by
  refine Finset.sum_lt_sum (fun d _ => ?_)
    ⟨c, Finset.mem_filter.2 ⟨List.mem_toFinset.2 hmem, hbin⟩, ?_⟩
  · by_cases hdc : d = c
    · rw [hdc, update_self]
      omega
    · rw [update_of_ne hdc]
  · rw [update_self]
    omega

theorem Dealing.places_le (h : Dealing w B₀ a an aj top B) :
    places w B₀ a an aj top ≤ an - a := by
  calc places w B₀ a an aj top
      ≤ ∑ c ∈ (weights w B₀ a an).toFinset with aj ≤ binStart w B₀ a an c,
          (weights w B₀ a an).count c := by
        refine Finset.sum_le_sum fun c hc => ?_
        obtain ⟨hmem, hbin⟩ := Finset.mem_filter.1 hc
        have := h.high c (List.mem_toFinset.1 hmem) hbin
        rw [binStart_succ] at this
        omega
    _ ≤ ∑ c ∈ (weights w B₀ a an).toFinset, (weights w B₀ a an).count c :=
        Finset.sum_le_sum_of_subset (Finset.filter_subset _ _)
    _ = an - a := by
        rw [List.sum_toFinset_count_eq_length, weights, List.length_map, length_vals]

section

variable {text : ℕ → UChar} {tr : UChar → UChar} {fuel : ℕ}

theorem bringHome_spec (hw : ∀ p, weight text tr p i = w p)
    (h : Dealing w B₀ a an aj top (update A aj r)) (ha : a ≤ aj) (haj : aj < an)
    (hfuel : places w B₀ a an aj top < fuel) :
    ∃ A' top' r' c, bringHome text tr i aj fuel A top r = some (A', top', r', c) ∧
      binStart w B₀ a an c = aj ∧ c ∈ weights w B₀ a an ∧
      Dealing w B₀ a an (aj + (weights w B₀ a an).count c) top' (update A' aj r') := by
  induction fuel generalizing A top r with
  | zero => exact absurd hfuel (Nat.not_lt_zero _)
  | succ fuel ih =>
    rw [bringHome, hw]
    have hr : update A aj r aj = r := update_self aj r A
    by_cases hlt : aj < top (w r) - 1
    · rw [if_pos hlt]
      have hmem := mem_weights (w := w) h.perm ha haj
      have hbin := h.le_bin ha haj
      have hstep := h.bring ha haj (by rw [hr]; exact hlt)
      have htop := h.bin_lt_top ha haj (by rw [hr]; omega)
      rw [hr] at hmem hbin hstep htop
      have hswap : update A aj r ∘ Equiv.swap aj (top (w r) - 1) =
          update (update A (top (w r) - 1) r) aj (A (top (w r) - 1)) := by
        rw [Equiv.comp_swap_eq_update, hr, update_of_ne hlt.ne', update_comm hlt.ne', update_idem,
          update_comm hlt.ne]
      rw [hswap] at hstep
      exact ih hstep (by have := places_bring hmem hbin htop; omega)
    · rw [if_neg hlt]
      have hle : top (w (update A aj r aj)) - 1 ≤ aj := by
        rw [hr]
        exact not_lt.1 hlt
      refine ⟨A, _, r, w r, rfl, ?_, ?_, ?_⟩
      · have := (h.last ha haj hle).1
        rwa [hr] at this
      · have := mem_weights (w := w) h.perm ha haj
        rwa [hr] at this
      · have := h.next ha haj hle (top (w r) - 1)
        rwa [hr] at this

def Resetting (w : ℕ → ℕ) (B₀ : ℕ → ℕ) (a an aj : ℕ) (count : ℕ → ℕ) : Prop :=
  ∀ d, count d = if binStart w B₀ a an (d + 1) ≤ aj then 0 else (weights w B₀ a an).count d

theorem Resetting.next (h : Resetting w B₀ a an aj count)
    (hstart : binStart w B₀ a an c = aj) :
    Resetting w B₀ a an (aj + (weights w B₀ a an).count c) (update count c 0) := by
  have hnext : aj + (weights w B₀ a an).count c = binStart w B₀ a an (c + 1) := by
    rw [binStart_succ, hstart]
  rw [hnext]
  intro d
  by_cases hdc : d = c
  · rw [hdc, update_self, if_pos (Nat.le_refl _)]
  rw [update_of_ne hdc, h d]
  by_cases hd : d ∈ weights w B₀ a an
  · have hlt := binStart_lt hd
    have hiff : binStart w B₀ a an (d + 1) ≤ aj ↔
        binStart w B₀ a an (d + 1) ≤ binStart w B₀ a an (c + 1) := by
      constructor
      · exact fun hle => hle.trans (hstart ▸ binStart_mono (Nat.le_succ c))
      · intro hle
        rcases Nat.lt_or_gt_of_ne hdc with hlt' | hgt
        · exact hstart ▸ binStart_mono hlt'
        · have := @binStart_mono w B₀ a an (c + 1) d hgt
          omega
    exact if_congr hiff rfl rfl
  · rw [List.count_eq_zero_of_not_mem hd, ite_self, ite_self]

theorem permute_run (hw : ∀ p, weight text tr p i = w p) (h : Dealing w B₀ a an aj top A)
    (hcount : Resetting w B₀ a an aj count) (ha : a ≤ aj) (haj : aj ≤ an) (hfuel : an - aj < fuel) :
    ∃ A' count', permute text tr i an fuel aj A count top = some (A', count') ∧ count' = 0 ∧
      Dealt List.Perm w B₀ a an A' := by
  induction fuel generalizing aj A count top with
  | zero => exact absurd hfuel (Nat.not_lt_zero _)
  | succ fuel ih =>
    rw [permute]
    by_cases hlt : aj < an
    · rw [if_pos hlt]
      have hplaces := h.places_le
      have hself : Dealing w B₀ a an aj top (update A aj (A aj)) := by rwa [update_eq_self]
      obtain ⟨A', top', r', c, hbring, hstart, hmem, hnext⟩ := bringHome_spec hw hself ha hlt
        (show places w B₀ a an aj top < an + 1 by omega)
      have hpos := binStart_lt hmem
      have hend := @binStart_le w B₀ a an (c + 1) (ha.trans haj)
      have hsucc := @binStart_succ w B₀ a an c
      have hcur : count c = (weights w B₀ a an).count c := by
        rw [hcount c, if_neg (by omega)]
      rw [hbring, Option.bind_eq_bind, Option.bind_some]
      dsimp only
      rw [hcur]
      exact ih hnext (hcount.next hstart) (by omega) (by omega) (by omega)
    · rw [if_neg hlt]
      have hall : ∀ c, binStart w B₀ a an (c + 1) ≤ aj := fun c =>
        (binStart_le (ha.trans haj)).trans (not_lt.1 hlt)
      refine ⟨A, count, rfl, ?_, h.perm, h.out, fun c x hx hxc => ?_⟩
      · funext d
        rw [hcount d, if_pos (hall d)]
        rfl
      · by_cases hmem : c ∈ weights w B₀ a an
        · exact h.full c hmem (hall c) x hx hxc
        · rw [binStart_succ, List.count_eq_zero_of_not_mem hmem] at hxc
          omega

theorem permute_spec (hw : ∀ p, weight text tr p i = w p) (han : a ≤ an)
    (hcount : ∀ c, count c = (weights w A a an).count c)
    (htop : ∀ c ∈ weights w A a an, top c = binStart w A a an (c + 1)) (hfuel : an - a < fuel) :
    ∃ A' count', permute text tr i an fuel a A count top = some (A', count') ∧ count' = 0 ∧
      Dealt List.Perm w A a an A' := by
  refine permute_run hw ⟨List.Perm.refl _, fun _ _ => rfl, fun c _ => Or.inr le_binStart,
    fun c _ hdone x hx hxc => ?_, fun c hc _ => ?_, fun c hc _ => (htop c hc).le,
    fun c hc _ x hx hxc => ?_⟩ (fun d => ?_) (Nat.le_refl a) han hfuel
  · have := @le_binStart w A a an c
    omega
  · rw [htop c hc]
    exact binStart_mono (Nat.le_succ c)
  · rw [htop c hc] at hx
    omega
  · rw [hcount]
    split_ifs with hle
    · have h₁ := @le_binStart w A a an d
      have h₂ := @binStart_succ w A a an d
      omega
    · rfl

/-- The strings from place `k` on are dealt. -/
structure DealtFrom (w : ℕ → ℕ) (B₀ : ℕ → ℕ) (a an k : ℕ) (top : ℕ → ℕ) (A : ℕ → ℕ) : Prop where
  room : ∀ c ∈ weights w B₀ a an,
    top c + ((vals B₀ (a + k) an).filter fun p => w p = c).length = binStart w B₀ a an (c + 1)
  pile : ∀ c ∈ weights w B₀ a an, vals A (top c) (binStart w B₀ a an (c + 1)) =
    (vals B₀ (a + k) an).filter fun p => w p = c
  out : ∀ x, x < a ∨ an ≤ x → A x = B₀ x

theorem count_weights (c : ℕ) : (weights w B₀ a an).count c =
    ((vals B₀ a an).filter fun p => w p = c).length := by
  rw [weights, List.count, List.countP_map, List.countP_eq_length_filter]
  refine congrArg List.length (List.filter_congr fun p _ => ?_)
  exact Bool.beq_eq_decide_eq _ _

theorem DealtFrom.deal {k : ℕ} (h : DealtFrom w B₀ a an (k + 1) top A) (hk : a + k < an) :
    DealtFrom w B₀ a an k (update top (w (B₀ (a + k))) (top (w (B₀ (a + k))) - 1))
      (update A (top (w (B₀ (a + k))) - 1) (B₀ (a + k))) := by
  have hmem : w (B₀ (a + k)) ∈ weights w B₀ a an :=
    mem_weights (List.Perm.refl _) (Nat.le_add_right a k) hk
  have hcons : vals B₀ (a + k) an = B₀ (a + k) :: vals B₀ (a + (k + 1)) an := vals_cons hk
  have han : a ≤ an := (Nat.le_add_right a k).trans hk.le
  generalize hx : B₀ (a + k) = x at *
  generalize hc : w x = c at *
  have hown : ((vals B₀ (a + k) an).filter fun p => w p = c) =
      x :: (vals B₀ (a + (k + 1)) an).filter fun p => w p = c := by
    rw [hcons]
    exact List.filter_cons_of_pos (decide_eq_true hc)
  have hother : ∀ d, d ≠ c → ((vals B₀ (a + k) an).filter fun p => w p = d) =
      (vals B₀ (a + (k + 1)) an).filter fun p => w p = d := fun d hd => by
    rw [hcons, List.filter_cons_of_neg]
    rw [decide_eq_true_eq, hc]
    exact hd.symm
  have htop := h.room c hmem
  have hroom : binStart w B₀ a an c < top c := by
    have hsplit := @count_weights w B₀ a an c
    rw [vals_append (Nat.le_add_right a k) hk.le, List.filter_append, List.length_append, hown,
      List.length_cons] at hsplit
    have hsucc := @binStart_succ w B₀ a an c
    omega
  have hend : top c ≤ binStart w B₀ a an (c + 1) := by omega
  refine ⟨fun d hd => ?_, fun d hd => ?_, fun y hy => ?_⟩
  · by_cases hdc : d = c
    · rw [hdc, update_self, hown, List.length_cons]
      omega
    · rw [update_of_ne hdc, hother d hdc]
      exact h.room d hd
  · by_cases hdc : d = c
    · have hsucc : top c - 1 + 1 = top c := by omega
      rw [hdc, update_self, hown, vals_cons (by omega), update_self, hsucc, ← h.pile c hmem]
      refine congrArg _ (vals_congr fun y hy _ => update_of_ne (by omega) _ _)
    · rw [update_of_ne hdc, hother d hdc, ← h.pile d hd]
      -- the bins lie apart
      have hlow : binStart w B₀ a an d ≤ top d := by
        have hd₁ := h.room d hd
        have hd₂ := @binStart_succ w B₀ a an d
        have hd₃ := @count_weights w B₀ a an d
        rw [vals_append (Nat.le_add_right a (k + 1)) hk, List.filter_append,
          List.length_append] at hd₃
        omega
      refine vals_congr fun y hy hyd => update_of_ne ?_ _ _
      rcases Nat.lt_or_gt_of_ne hdc with hlt | hgt
      · have := @binStart_mono w B₀ a an (d + 1) c hlt
        omega
      · have := @binStart_mono w B₀ a an (c + 1) d hgt
        omega
  · have h₁ := @le_binStart w B₀ a an c
    have h₂ := @binStart_le w B₀ a an (c + 1) han
    rw [update_of_ne (by omega), h.out y hy]

theorem dealOut_run (hw : ∀ p, weight text tr p i = w p) {k : ℕ} (hk : a + k ≤ an)
    (h : DealtFrom w B₀ a an k top A) :
    ∃ top', DealtFrom w B₀ a an 0 top' (dealOut text tr i (fun k => B₀ (a + k)) k A top) := by
  induction k generalizing A top with
  | zero => exact ⟨top, h⟩
  | succ k ih =>
    rw [dealOut, hw]
    exact ih (by omega) (h.deal hk)

theorem vals_bins (hpile : ∀ c ∈ weights w B₀ a an, vals A (binStart w B₀ a an c)
      (binStart w B₀ a an (c + 1)) = (vals B₀ a an).filter fun p => w p = c) (m : ℕ) :
    vals A a (binStart w B₀ a an m) =
      (List.range m).flatMap fun c => (vals B₀ a an).filter fun p => w p = c := by
  induction m with
  | zero =>
    have hzero : binStart w B₀ a an 0 = a := by
      rw [binStart, start_eq_zero fun x _ => Nat.zero_le x, Nat.add_zero]
    rw [hzero, vals_eq_nil (Nat.le_refl a)]
    rfl
  | succ m ih =>
    have hbin : vals A (binStart w B₀ a an m) (binStart w B₀ a an (m + 1)) =
        (vals B₀ a an).filter fun p => w p = m := by
      by_cases hm : m ∈ weights w B₀ a an
      · exact hpile m hm
      · have hcount := List.count_eq_zero_of_not_mem hm
        rw [vals_eq_nil (by rw [binStart_succ, hcount, Nat.add_zero]), eq_comm, ←
          List.length_eq_zero_iff,
          ← count_weights, hcount]
    rw [vals_append le_binStart (binStart_mono (Nat.le_succ m)), ih, hbin, List.range_succ,
      List.flatMap_append, List.flatMap_singleton]

theorem dealOut_spec {cmp : ℕ → ℕ → ℤ} (hcmp : Comparison cmp)
    (hw : ∀ p, weight text tr p i = w p) (hn : a + n = an)
    (htop : ∀ c ∈ weights w A a an, top c = binStart w A a an (c + 1))
    (hwlt : ∀ c ∈ weights w A a an, c < m)
    (hne : ∀ p ∈ vals A a an, ∀ q ∈ vals A a an, w p ≠ w q → cmp p q ≠ 0) :
    Dealt (Stably cmp) w A a an (dealOut text tr i (fun k => A (a + k)) n A top) := by
  have hnil : vals A (a + n) an = [] := vals_eq_nil hn.ge
  have hstart : DealtFrom w A a an n top A :=
    ⟨fun c hc => by rw [hnil, htop c hc]; rfl, fun c hc => by
      rw [hnil, htop c hc, vals_eq_nil (Nat.le_refl _)]; rfl, fun _ _ => rfl⟩
  obtain ⟨top', hfrom⟩ := dealOut_run hw hn.le hstart
  generalize dealOut text tr i (fun k => A (a + k)) n A top = A' at hfrom ⊢
  have htop' : ∀ c ∈ weights w A a an, top' c = binStart w A a an c := by
    intro c hc
    have h₁ := hfrom.room c hc
    rw [Nat.add_zero, ← count_weights, binStart_succ] at h₁
    exact Nat.add_right_cancel h₁
  have hpile : ∀ c ∈ weights w A a an, vals A' (binStart w A a an c)
      (binStart w A a an (c + 1)) = (vals A a an).filter fun p => w p = c := by
    intro c hc
    have h₁ := hfrom.pile c hc
    rwa [htop' c hc] at h₁
  have hend : binStart w A a an m = an := by
    rw [binStart, start_eq_length hwlt, weights, List.length_map, length_vals]
    omega
  have hall := vals_bins hpile m
  rw [hend] at hall
  refine ⟨?_, hfrom.out, fun c x hx hxc => ?_⟩
  · rw [hall]
    exact stably_piles hcmp List.nodup_range
      (fun p hp => List.mem_range.2 (hwlt _ (List.mem_map_of_mem hp))) hne
  · have hc : c ∈ weights w A a an := by
      by_contra hno
      rw [binStart_succ, List.count_eq_zero_of_not_mem hno] at hxc
      omega
    have hin := hpile c hc ▸ mem_vals_self (A := A') hx hxc
    exact of_decide_eq_true (List.mem_filter.1 hin).2

end

end Bsdi.Stdlib
