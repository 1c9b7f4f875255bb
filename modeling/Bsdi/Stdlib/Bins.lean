import Bsdi.Stdlib.Radixsort
import Mathlib.Order.Interval.Finset.Nat

/-!
# Bins

The histogram of the weights at one place of the strings, and the loop that makes a pile of each
bin: it finds the end of every bin, and pushes the bins that are to be sorted by the next place.
-/

namespace Bsdi.Stdlib

open Bsdi.Lib Function

variable {e a i n c cp : ℕ} {ws vs : List ℕ} {t : Tally} {clear : Bool} {p : Piles}

/-- As many strings lie before the bin of `c`. -/
def start (ws : List ℕ) (c : ℕ) : ℕ := ws.countP (· < c)

theorem start_succ (ws : List ℕ) (c : ℕ) : start ws (c + 1) = start ws c + ws.count c := by
  induction ws with
  | nil => rfl
  | cons x ws ih =>
    rw [start] at ih ⊢
    rw [start] at ih ⊢
    rw [List.countP_cons, List.countP_cons, List.count_cons, ih]
    simp only [decide_eq_true_eq, beq_iff_eq]
    split_ifs <;> omega

theorem start_mono (h : c ≤ n) : start ws c ≤ start ws n :=
  List.countP_mono_left fun x _ hx => by
    rw [decide_eq_true_eq] at hx ⊢
    exact hx.trans_le h

theorem start_eq_zero (h : ∀ x ∈ ws, c ≤ x) : start ws c = 0 :=
  List.countP_eq_zero.2 fun x hx => by
    rw [decide_eq_true_eq]
    exact not_lt.2 (h x hx)

theorem start_eq_length (h : ∀ x ∈ ws, x < c) : start ws c = ws.length :=
  List.countP_eq_length.2 fun x hx => decide_eq_true (h x hx)

def bins (e : ℕ) (ws : List ℕ) : Finset ℕ := (Finset.range 256).filter fun c => c ≠ e ∧ c ∈ ws

theorem mem_bins : c ∈ bins e ws ↔ c < 256 ∧ c ≠ e ∧ c ∈ ws := by
  rw [bins, Finset.mem_filter, Finset.mem_range]

/-- Those from `cp` on. -/
def binsFrom (e : ℕ) (ws : List ℕ) (cp : ℕ) : Finset ℕ := (bins e ws).filter fun c => cp ≤ c

theorem mem_binsFrom : c ∈ binsFrom e ws cp ↔ c < 256 ∧ c ≠ e ∧ c ∈ ws ∧ cp ≤ c := by
  rw [binsFrom, Finset.mem_filter, mem_bins, and_assoc, and_assoc]

/-- The bin of `c` is to be sorted by the place behind `i`. -/
def binTask (e a i : ℕ) (ws : List ℕ) (c : ℕ) : List Task :=
  if c ≠ e ∧ 1 < ws.count c then [⟨a + start ws c, ws.count c, i + 1⟩] else []

/-- The bins before that of `cp` that are to be sorted. -/
def binTasks (e a i : ℕ) (ws : List ℕ) (cp : ℕ) : List Task :=
  (List.range cp).flatMap (binTask e a i ws)

theorem binTask_eq_nil (h : c = e ∨ c ∉ ws) : binTask e a i ws c = [] := by
  refine if_neg fun h' => ?_
  rcases h with rfl | hc
  · exact h'.1 rfl
  · rw [List.count_eq_zero_of_not_mem hc] at h'
    exact absurd h'.2 (by decide)

theorem binTasks_succ (cp : ℕ) :
    binTasks e a i ws (cp + 1) = binTasks e a i ws cp ++ binTask e a i ws cp := by
  rw [binTasks, List.range_succ, List.flatMap_append, List.flatMap_singleton]
  rfl

theorem binTasks_congr (h : ∀ x, cp ≤ x → x < cp + n → x = e ∨ x ∉ ws) :
    binTasks e a i ws (cp + n) = binTasks e a i ws cp := by
  induction n with
  | zero => rfl
  | succ n ih =>
    rw [← Nat.add_assoc, binTasks_succ, binTask_eq_nil (h _ (Nat.le_add_right _ _) (by omega)),
      List.append_nil]
    exact ih fun x hx hxn => h x hx (by omega)

/-- The static variables after the histogram of `ws`. -/
structure Tallied (e : ℕ) (ws : List ℕ) (t : Tally) : Prop where
  count : ∀ c, t.count c = ws.count c
  nc : t.nc = (bins e ws).card
  low : ∀ c ∈ ws, c ≠ e → t.bmin ≤ c
  bmin : t.bmin = 255 ∨ t.bmin ∈ ws ∧ t.bmin ≠ e

theorem Tallied.tally (h : Tallied e ws t) (hc : c < 256) :
    Tallied e (c :: ws) (tally e t c) := by
  have hcount : ∀ x, update t.count c (t.count c + 1) x = (c :: ws).count x := by
    intro x
    by_cases hx : x = c
    · rw [hx, update_self, List.count_cons_self, h.count]
    · rw [update_of_ne hx, List.count_cons_of_ne (Ne.symm hx), h.count]
  rw [Stdlib.tally]
  by_cases hnew : t.count c + 1 = 1 ∧ c ≠ e
  · rw [if_pos hnew]
    have hmem : c ∉ ws := List.count_eq_zero.1 ((h.count c).symm.trans (Nat.succ.inj hnew.1))
    have hbins : bins e (c :: ws) = insert c (bins e ws) := by
      ext x
      rw [Finset.mem_insert, mem_bins, mem_bins, List.mem_cons]
      constructor
      · rintro ⟨hx, hne, rfl | hws⟩
        · exact Or.inl rfl
        · exact Or.inr ⟨hx, hne, hws⟩
      · rintro (rfl | ⟨hx, hne, hws⟩)
        · exact ⟨hc, hnew.2, Or.inl rfl⟩
        · exact ⟨hx, hne, Or.inr hws⟩
    refine ⟨hcount, ?_, fun x hx hne => ?_, ?_⟩
    · rw [hbins, Finset.card_insert_of_notMem fun h' => hmem (mem_bins.1 h').2.2, ← h.nc]
    · dsimp only
      rcases List.mem_cons.1 hx with rfl | hx
      · split_ifs <;> omega
      · have := h.low x hx hne
        split_ifs <;> omega
    · dsimp only
      split_ifs with hlt
      · exact Or.inr ⟨List.mem_cons_self, hnew.2⟩
      · exact h.bmin.imp_right fun h' => ⟨List.mem_cons_of_mem _ h'.1, h'.2⟩
  · rw [if_neg hnew]
    have hold : c = e ∨ c ∈ ws := by
      by_contra hno
      rw [not_or] at hno
      exact hnew ⟨by rw [h.count, List.count_eq_zero_of_not_mem hno.2], hno.1⟩
    have hbins : bins e (c :: ws) = bins e ws := by
      ext x
      rw [mem_bins, mem_bins, List.mem_cons]
      refine ⟨fun hx => ⟨hx.1, hx.2.1, ?_⟩, fun hx => ⟨hx.1, hx.2.1, Or.inr hx.2.2⟩⟩
      rcases hx.2.2 with rfl | hws
      · exact hold.resolve_left hx.2.1
      · exact hws
    refine ⟨hcount, by rw [hbins, ← h.nc], fun x hx hne => ?_, ?_⟩
    · rcases List.mem_cons.1 hx with rfl | hx
      · exact h.low x (hold.resolve_left hne) hne
      · exact h.low x hx hne
    · exact h.bmin.imp_right fun h' => ⟨List.mem_cons_of_mem _ h'.1, h'.2⟩

theorem Tallied.perm (h : Tallied e ws t) (hperm : ws.Perm vs) : Tallied e vs t := by
  have hbins : bins e ws = bins e vs := by
    ext x
    rw [mem_bins, mem_bins, hperm.mem_iff]
  refine ⟨fun c => (h.count c).trans (hperm.count_eq c), hbins ▸ h.nc, fun c hc =>
    h.low c (hperm.mem_iff.2 hc), h.bmin.imp_right fun h' => ⟨hperm.mem_iff.1 h'.1, h'.2⟩⟩

theorem tallied_foldl (h : Tallied e vs t) (hws : ∀ c ∈ ws, c < 256) :
    Tallied e (ws ++ vs) (ws.foldl (tally e) t) := by
  induction ws generalizing vs t with
  | nil => exact h
  | cons c ws ih =>
    have hstep := ih (h.tally (hws c List.mem_cons_self)) fun x hx =>
      hws x (List.mem_cons_of_mem _ hx)
    exact hstep.perm List.perm_middle

theorem tallied_histogram (hcount : t.count = 0) (hnc : t.nc = 0) (hws : ∀ c ∈ ws, c < 256) :
    Tallied e ws (histogram e ws t) := by
  have hempty : bins e [] = ∅ := by
    ext x
    rw [mem_bins]
    exact ⟨fun h => absurd h.2.2 List.not_mem_nil, fun h => absurd h (Finset.notMem_empty x)⟩
  have hnil : Tallied e [] { t with bmin := 255 } :=
    ⟨fun c => by rw [hcount]; rfl, by rw [hempty, hnc]; rfl,
      fun c hc => absurd hc List.not_mem_nil, Or.inl rfl⟩
  have h := tallied_foldl hnil hws
  rwa [List.append_nil] at h

theorem Tallied.bmin_le (h : Tallied e ws t) (hws : ∀ c ∈ ws, c < 256) : t.bmin ≤ 255 := by
  rcases h.bmin with hb | hb
  · exact hb.le
  · have := hws _ hb.1
    omega

/-- The piles before that of `cp` are made. -/
structure Piling (e a i : ℕ) (clear : Bool) (ws : List ℕ) (cp : ℕ) (p : Piles) : Prop where
  ak : p.ak = a + start ws cp
  count : ∀ c, p.count c = if clear = true ∧ (c < cp ∨ c = e) then 0 else ws.count c
  nc : p.nc = (binsFrom e ws cp).card
  top : ∀ c ∈ ws, c < cp ∨ c = e → p.top c = a + start ws (c + 1)
  pushed : p.pushed = binTasks e a i ws cp

structure Piled (e a i : ℕ) (clear : Bool) (ws : List ℕ) (p : Piles) : Prop where
  nc : p.nc = 0
  count : ∀ c, p.count c = if clear = true then 0 else ws.count c
  top : ∀ c ∈ ws, p.top c = a + start ws (c + 1)
  pushed : p.pushed = binTasks e a i ws 256

theorem piling_eosPile (h : Tallied e ws t) (hws : ∀ c ∈ ws, c < 256) (hn : ws.length = n)
    (he : e = 0 ∨ e = 255) : Piling e a i clear ws t.bmin (eosPile e clear a n t) := by
  have hbmin : t.bmin ≤ 255 := h.bmin_le hws
  have hbelow : ∀ c ∈ ws, c < t.bmin → c = e := by
    intro c hc hlt
    by_contra hne
    exact absurd (h.low c hc hne) (not_le.2 hlt)
  have hnc : t.nc = (binsFrom e ws t.bmin).card := by
    rw [h.nc, binsFrom, Finset.filter_true_of_mem]
    intro c hc
    obtain ⟨-, hne, hmem⟩ := mem_bins.1 hc
    exact h.low c hmem hne
  have hcount : ∀ c, reset clear t.count e c =
      if clear = true ∧ (c < t.bmin ∨ c = e) then 0 else ws.count c := by
    intro c
    by_cases hclear : clear = true
    · rw [reset, if_pos hclear]
      by_cases hc : c = e
      · rw [hc, update_self, if_pos ⟨hclear, Or.inr rfl⟩]
      · rw [update_of_ne hc, h.count]
        split_ifs with h'
        · refine List.count_eq_zero_of_not_mem fun hmem => ?_
          exact hc (hbelow c hmem (h'.2.resolve_right hc))
        · rfl
    · rw [reset, if_neg hclear, if_neg fun h' => hclear h'.1, h.count]
  have hpushed : [] = binTasks e a i ws t.bmin := by
    have hcongr := @binTasks_congr e a i t.bmin 0 ws fun x _ hx => by
      by_cases hmem : x ∈ ws
      · exact Or.inl (hbelow x hmem (by omega))
      · exact Or.inr hmem
    rw [Nat.zero_add] at hcongr
    exact hcongr.symm
  rcases he with rfl | rfl
  · have hpos : 0 < t.bmin := by
      rcases h.bmin with hb | hb
      · omega
      · exact Nat.pos_of_ne_zero hb.2
    have hone : start ws 1 = t.count 0 := by
      rw [start_succ, start_eq_zero fun x _ => Nat.zero_le x, Nat.zero_add, h.count]
    have hstart : start ws t.bmin = t.count 0 := by
      rw [← hone]
      refine List.countP_congr fun x hx => ?_
      rw [decide_eq_true_eq, decide_eq_true_eq]
      exact ⟨fun hlt => by have := hbelow x hx hlt; omega, fun hlt => by omega⟩
    refine ⟨by rw [hstart]; rfl, hcount, hnc, fun c hc hlt => ?_, hpushed⟩
    have hc0 : c = 0 := hlt.elim (hbelow c hc) id
    rw [hc0, Nat.zero_add, hone]
    rfl
  · have hstart : start ws t.bmin = 0 := start_eq_zero fun x hx => by
      by_contra hlt
      have hx255 := hbelow x hx (not_le.1 hlt)
      omega
    refine ⟨by rw [hstart]; rfl, hcount, hnc, fun c hc hlt => ?_, hpushed⟩
    have hc255 : c = 255 := hlt.elim (hbelow c hc) id
    rw [hc255, start_eq_length hws, hn]
    rfl

theorem Piling.pile (h : Piling e a i clear ws cp p) (hmem : cp ∈ ws) (hcp : cp < 256)
    (hne : cp ≠ e) : Piling e a i clear ws (cp + 1) (pile clear i cp p) := by
  have hc : p.count cp = ws.count cp := by
    rw [h.count, if_neg fun h' => h'.2.elim (Nat.lt_irrefl cp) hne]
  have hfrom : binsFrom e ws (cp + 1) = (binsFrom e ws cp).erase cp := by
    ext x
    rw [Finset.mem_erase, mem_binsFrom, mem_binsFrom]
    constructor
    · rintro ⟨h₁, h₂, h₃, h₄⟩
      exact ⟨by omega, h₁, h₂, h₃, by omega⟩
    · rintro ⟨h₀, h₁, h₂, h₃, h₄⟩
      exact ⟨h₁, h₂, h₃, by omega⟩
  refine ⟨?_, fun x => ?_, ?_, fun x hx hlt => ?_, ?_⟩
  · rw [Stdlib.pile, start_succ, ← Nat.add_assoc, ← h.ak, ← hc]
  · by_cases hclear : clear = true
    · have hiff : (clear = true ∧ (x < cp + 1 ∨ x = e)) ↔
          x = cp ∨ clear = true ∧ (x < cp ∨ x = e) := by
        rw [Nat.lt_succ_iff_lt_or_eq]
        tauto
      rw [Stdlib.pile]
      dsimp only
      rw [reset, if_pos hclear]
      by_cases hx : x = cp
      · rw [hx, update_self, if_pos ⟨hclear, Or.inl (Nat.lt_succ_self cp)⟩]
      · rw [update_of_ne hx, h.count]
        exact if_congr ((or_iff_right hx).symm.trans hiff.symm) rfl rfl
    · rw [if_neg fun h' => hclear h'.1, Stdlib.pile]
      dsimp only
      rw [reset, if_neg hclear, h.count, if_neg fun h' => hclear h'.1]
  · have hin : cp ∈ binsFrom e ws cp := mem_binsFrom.2 ⟨hcp, hne, hmem, Nat.le_refl cp⟩
    rw [hfrom, Finset.card_erase_of_mem hin, ← h.nc]
    rfl
  · rw [Stdlib.pile]
    dsimp only
    by_cases hxc : x = cp
    · rw [hxc, update_self, start_succ, ← Nat.add_assoc, ← h.ak, ← hc]
    · rw [update_of_ne hxc]
      exact h.top x hx (hlt.imp_left fun h' => by omega)
  · rw [Stdlib.pile]
    dsimp only
    rw [binTasks_succ, ← h.pushed, binTask, h.ak, hc]
    by_cases hlarge : 1 < ws.count cp
    · rw [if_pos hlarge, if_pos ⟨hne, hlarge⟩]
    · rw [if_neg hlarge, if_neg fun h' => hlarge h'.2, List.append_nil]

theorem Piling.skip (h : Piling e a i clear ws cp p) (hmem : cp ∉ ws) :
    Piling e a i clear ws (cp + 1) p := by
  have hfrom : binsFrom e ws (cp + 1) = binsFrom e ws cp := by
    ext x
    rw [mem_binsFrom, mem_binsFrom]
    refine ⟨fun h' => ⟨h'.1, h'.2.1, h'.2.2.1, by omega⟩, fun h' => ⟨h'.1, h'.2.1, h'.2.2.1, ?_⟩⟩
    have hx : x ≠ cp := fun hx => hmem (hx ▸ h'.2.2.1)
    omega
  have hcount := List.count_eq_zero_of_not_mem hmem
  refine ⟨?_, fun x => ?_, ?_, fun x hx hlt => ?_, ?_⟩
  · rw [start_succ, hcount, h.ak, Nat.add_zero]
  · rw [h.count]
    by_cases hx : x = cp
    · rw [hx, hcount, ite_self, ite_self]
    · have hiff : x < cp ↔ x < cp + 1 := by omega
      exact if_congr (and_congr_right fun _ => or_congr_left hiff) rfl rfl
  · rw [hfrom, h.nc]
  · have hxc : x ≠ cp := fun hxc => hmem (hxc ▸ hx)
    exact h.top x hx (hlt.imp_left fun h' => by omega)
  · rw [binTasks_succ, binTask_eq_nil (Or.inr hmem), List.append_nil, h.pushed]

theorem Piling.piled (h : Piling e a i clear ws cp p) (hws : ∀ c ∈ ws, c < 256) (hcp : cp ≤ 256)
    (hnc : p.nc = 0) : Piled e a i clear ws p := by
  have hnone : ∀ c ∈ ws, c < cp ∨ c = e := by
    intro c hc
    by_contra hno
    rw [not_or] at hno
    have hempty : binsFrom e ws cp = ∅ := Finset.card_eq_zero.1 (h.nc.symm.trans hnc)
    have hin : c ∈ binsFrom e ws cp :=
      mem_binsFrom.2 ⟨hws c hc, hno.2, hc, not_lt.1 hno.1⟩
    rw [hempty] at hin
    exact Finset.notMem_empty c hin
  refine ⟨hnc, fun c => ?_, fun c hc => h.top c hc (hnone c hc), ?_⟩
  · rw [h.count]
    by_cases hclear : clear = true
    · rw [if_pos hclear]
      by_cases hc : c < cp ∨ c = e
      · exact if_pos ⟨hclear, hc⟩
      · rw [if_neg fun h' => hc h'.2]
        exact List.count_eq_zero_of_not_mem fun hmem => hc (hnone c hmem)
    · rw [if_neg hclear, if_neg fun h' => hclear h'.1]
  · obtain ⟨d, hd⟩ := Nat.exists_eq_add_of_le hcp
    rw [hd, h.pushed]
    refine (binTasks_congr fun x hx _ => ?_).symm
    by_cases hmem : x ∈ ws
    · exact Or.inl ((hnone x hmem).resolve_left (not_lt.2 hx))
    · exact Or.inr hmem

theorem piles_spec {fuel : ℕ} (hws : ∀ c ∈ ws, c < 256) (he : e = 0 ∨ e = 255)
    (h : Piling e a i clear ws cp p) (hpos : e = 0 → 0 < cp) (hfuel : cp + fuel = 257)
    (hcp : cp ≤ 256) :
    ∃ p', piles clear i fuel cp p = some p' ∧ Piled e a i clear ws p' := by
  induction fuel generalizing cp p with
  | zero => omega
  | succ fuel ih =>
    rw [piles]
    by_cases hnc : p.nc = 0
    · rw [if_pos hnc]
      exact ⟨p, rfl, h.piled hws hcp hnc⟩
    · rw [if_neg hnc]
      -- a bin that is left is not that of the terminator
      obtain ⟨x, hx⟩ : (binsFrom e ws cp).Nonempty := Finset.card_ne_zero.1 (h.nc ▸ hnc)
      obtain ⟨hx256, hxe, hxws, hcpx⟩ := mem_binsFrom.1 hx
      have hne : cp ≠ e := by
        rcases he with rfl | rfl
        · exact (hpos rfl).ne'
        · omega
      have hc : p.count cp = ws.count cp := by
        rw [h.count, if_neg fun h' => h'.2.elim (Nat.lt_irrefl cp) hne]
      by_cases hzero : p.count cp = 0
      · rw [if_pos hzero]
        exact ih (h.skip (List.count_eq_zero.1 (hc ▸ hzero))) (fun _ => Nat.succ_pos cp) (by omega)
          (by omega)
      · rw [if_neg hzero]
        have hmem : cp ∈ ws := by
          by_contra hno
          exact hzero (hc.trans (List.count_eq_zero_of_not_mem hno))
        exact ih (h.pile hmem (by omega) hne) (fun _ => Nat.succ_pos cp) (by omega) (by omega)

end Bsdi.Stdlib
