import Bsdi.Stdlib.Deal
import Bsdi.Stdlib.Weights

/-!
# The stack of the radix sorts

What lies on the stack are parts of the array that do not overlap. A turn replaces a part by its
bins, and with these in order the part is in order.
-/

namespace Bsdi.Stdlib

open Bsdi.Lib Function

variable {w : ℕ → ℕ → ℕ} {A A₁ A₂ : ℕ → ℕ} {a an c e i k l m n x M : ℕ} {t : Task}
  {P rest : List Task} {R : List ℕ → List ℕ → Prop} {ws : List ℕ}

/-- Rearrangements by which a part may be sorted. -/
structure Rearranges (cmp : ℕ → ℕ → ℤ) (R : List ℕ → List ℕ → Prop) : Prop where
  perm : ∀ l' l, R l' l → l'.Perm l
  stable : ∀ l' l, Stably cmp l' l → R l' l
  trans : ∀ n m l, R n m → R m l → R n l
  append : ∀ l' l m' m, R l' l → R m' m → R (l' ++ m') (l ++ m)

theorem rearranges_perm (cmp : ℕ → ℕ → ℤ) : Rearranges cmp List.Perm :=
  ⟨fun _ _ h => h, fun _ _ h => h.perm, fun _ _ _ h h' => h.trans h',
    fun _ _ _ _ h h' => h.append h'⟩

theorem rearranges_stably (cmp : ℕ → ℕ → ℤ) : Rearranges cmp (Stably cmp) :=
  ⟨fun _ _ h => h.perm, fun _ _ h => h, fun _ _ _ h h' => h.trans h',
    fun _ _ _ _ h h' => h.append h'⟩

theorem Rearranges.refl {cmp : ℕ → ℕ → ℤ} (h : Rearranges cmp R) (l : List ℕ) : R l l :=
  h.stable l l (Stably.refl l)

def Task.stop (t : Task) : ℕ := t.sa + t.sn

def Apart (t u : Task) : Prop := t.stop ≤ u.sa ∨ u.stop ≤ t.sa

theorem Apart.symm {t u : Task} (h : Apart t u) : Apart u t := Or.symm h

def Task.Misses (t : Task) (x : ℕ) : Prop := x < t.sa ∨ t.stop ≤ x

/-- The strings of each task agree up to its place. -/
structure Ready (w : ℕ → ℕ → ℕ) (e M : ℕ) (A : ℕ → ℕ) (P : List Task) : Prop where
  apart : P.Pairwise Apart
  level : ∀ t ∈ P, Level w e t.si M (vals A t.sa t.stop)

structure Done (R : List ℕ → List ℕ → Prop) (w : ℕ → ℕ → ℕ) (e : ℕ) (P : List Task)
    (A A' : ℕ → ℕ) : Prop where
  out : ∀ x, (∀ t ∈ P, t.Misses x) → A' x = A x
  rel : ∀ t ∈ P, R (vals A' t.sa t.stop) (vals A t.sa t.stop)
  sorted : ∀ t ∈ P, SortedOn (byWeights w e) A' t.sa t.stop

theorem Apart.misses {u : Task} (h : Apart t u) (hx : t.sa ≤ x) (hxt : x < t.stop) :
    u.Misses x := by
  rcases h with h | h
  · exact Or.inl (hxt.trans_le h)
  · exact Or.inr (h.trans hx)

theorem Ready.others (h : Ready w e M A (t :: rest)) (hout : ∀ x, t.Misses x → A₁ x = A x) :
    Ready w e M A₁ rest := by
  obtain ⟨hapart, hrest⟩ := List.pairwise_cons.1 h.apart
  refine ⟨hrest, fun u hu => ?_⟩
  have hsame : vals A₁ u.sa u.stop = vals A u.sa u.stop := vals_congr fun x hx hxu =>
    hout x ((hapart u hu).symm.misses hx hxu)
  rw [hsame]
  exact h.level u (List.mem_cons_of_mem _ hu)

theorem Done.cons (hapart : ∀ u ∈ rest, Apart t u) (h : Done R w e [t] A A₁)
    (h' : Done R w e rest A₁ A₂) : Done R w e (t :: rest) A A₂ := by
  have hout : ∀ x, t.Misses x → A₁ x = A x := fun x hx => h.out x fun u hu => by
    rw [List.mem_singleton.1 hu]
    exact hx
  have hkept : ∀ x, t.sa ≤ x → x < t.stop → A₂ x = A₁ x := fun x hx hxt =>
    h'.out x fun u hu => (hapart u hu).misses hx hxt
  refine ⟨fun x hx => ?_, fun u hu => ?_, fun u hu => ?_⟩
  · rw [h'.out x fun u hu => hx u (List.mem_cons_of_mem _ hu), hout x (hx t List.mem_cons_self)]
  · rcases List.mem_cons.1 hu with rfl | hu
    · rw [vals_congr hkept]
      exact h.rel u List.mem_cons_self
    · have hsame : vals A₁ u.sa u.stop = vals A u.sa u.stop := vals_congr fun x hx hxu =>
        hout x ((hapart u hu).symm.misses hx hxu)
      rw [← hsame]
      exact h'.rel u hu
  · rcases List.mem_cons.1 hu with rfl | hu
    · exact (h.sorted u List.mem_cons_self).congr hkept
    · exact h'.sorted u hu

theorem mem_binTasks : t ∈ binTasks e a i ws m ↔
    ∃ c < m, c ≠ e ∧ 1 < ws.count c ∧ t = ⟨a + start ws c, ws.count c, i + 1⟩ := by
  rw [binTasks, List.mem_flatMap]
  refine exists_congr fun c => ?_
  rw [List.mem_range]
  refine and_congr_right fun _ => ?_
  rw [binTask]
  split_ifs with h
  · rw [List.mem_singleton, ← and_assoc, and_iff_right h]
  · exact ⟨fun h' => absurd h' List.not_mem_nil, fun h' => absurd ⟨h'.1, h'.2.1⟩ h⟩

theorem binTask_stop {w : ℕ → ℕ} : (Task.mk (binStart w A a an c) ((weights w A a an).count c)
    i).stop = binStart w A a an (c + 1) := (binStart_succ c).symm

theorem binTasks_apart {w : ℕ → ℕ} (m : ℕ) :
    (binTasks e a i (weights w A a an) m).Pairwise Apart := by
  induction m with
  | zero => exact List.Pairwise.nil
  | succ m ih =>
    rw [binTasks_succ]
    refine List.pairwise_append.2 ⟨ih, ?_, fun u hu v hv => ?_⟩
    · rw [binTask]
      split_ifs
      · exact List.pairwise_singleton _ _
      · exact List.Pairwise.nil
    · obtain ⟨c, hc, -, -, rfl⟩ := mem_binTasks.1 hu
      rw [binTask] at hv
      split_ifs at hv
      · rw [List.mem_singleton.1 hv]
        exact Or.inl (binTask_stop.trans_le (binStart_mono hc))
      · exact absurd hv List.not_mem_nil

theorem length_binTasks (m : ℕ) (hm : m ≤ 256) :
    (binTasks e a i ws m).length ≤ ((bins e ws).filter fun c => c < m).card := by
  induction m with
  | zero => exact Nat.zero_le _
  | succ m ih =>
    have ih := ih (by omega)
    have hsub : ((bins e ws).filter fun c => c < m) ⊆ (bins e ws).filter fun c => c < m + 1 :=
      fun x hx => by
        obtain ⟨hx, hxm⟩ := Finset.mem_filter.1 hx
        exact Finset.mem_filter.2 ⟨hx, by omega⟩
    rw [binTasks_succ, List.length_append, binTask]
    split_ifs with h
    · have hmem : m ∈ ws := List.count_pos_iff.1 (by omega)
      have hnot : m ∉ (bins e ws).filter fun c => c < m := fun hx =>
        Nat.lt_irrefl m (Finset.mem_filter.1 hx).2
      have hin : m ∈ (bins e ws).filter fun c => c < m + 1 :=
        Finset.mem_filter.2 ⟨mem_bins.2 ⟨by omega, h.1, hmem⟩, Nat.lt_succ_self m⟩
      have hcard := Finset.card_le_card (Finset.insert_subset hin hsub)
      rw [Finset.card_insert_of_notMem hnot] at hcard
      rw [List.length_singleton]
      omega
    · exact ih.trans (Finset.card_le_card hsub)

/-- A bound on the turns that tasks take, for strings that end at place `M` at the latest. -/
def size (M : ℕ) (P : List Task) : ℕ := (P.map fun t => 1 + 2 * (t.sn * (M + 1 - t.si))).sum

theorem size_cons : size M (t :: P) = 1 + 2 * (t.sn * (M + 1 - t.si)) + size M P := rfl

theorem size_append (P Q : List Task) : size M (P ++ Q) = size M P + size M Q := by
  rw [size, List.map_append, List.sum_append]
  rfl

theorem size_perm {Q : List Task} (h : P.Perm Q) : size M P = size M Q := (h.map _).sum_eq

theorem size_binTasks (m : ℕ) :
    size M (binTasks e a i ws m) ≤ start ws m * (1 + 2 * (M - i)) := by
  induction m with
  | zero => exact Nat.zero_le _
  | succ m ih =>
    rw [binTasks_succ, size_append, start_succ, Nat.add_mul]
    refine Nat.add_le_add ih ?_
    rw [binTask]
    split_ifs with h
    · have hM : M + 1 - (i + 1) = M - i := by omega
      calc size M [⟨a + start ws m, ws.count m, i + 1⟩]
          = 1 + 2 * (ws.count m * (M - i)) := by rw [size_cons, hM]; rfl
        _ ≤ ws.count m + 2 * (ws.count m * (M - i)) := Nat.add_le_add_right h.2.le _
        _ = ws.count m * (1 + 2 * (M - i)) := by rw [Nat.mul_add, Nat.mul_one, Nat.mul_left_comm]
    · exact Nat.zero_le _

theorem size_turn (hn : ws.length = t.sn) (hpos : 0 < t.sn) (hM : t.si ≤ M) (m : ℕ) :
    size M (binTasks e t.sa t.si ws m) < size M [t] := by
  have hstart : start ws m ≤ t.sn := hn ▸ List.countP_le_length
  have hsucc : M + 1 - t.si = M - t.si + 1 := by omega
  calc size M (binTasks e t.sa t.si ws m)
      ≤ start ws m * (1 + 2 * (M - t.si)) := size_binTasks m
    _ ≤ t.sn * (1 + 2 * (M - t.si)) := Nat.mul_le_mul_right _ hstart
    _ = t.sn + 2 * (t.sn * (M - t.si)) := by rw [Nat.mul_add, Nat.mul_one, Nat.mul_left_comm]
    _ < 1 + 2 * (t.sn * (M - t.si) + t.sn) := by omega
    _ = size M [t] := by rw [size_cons, hsucc, Nat.mul_succ]; rfl

section

variable (hdealt : Dealt R (fun p => w p i) A a an A₁)

include hdealt

theorem Dealt.level {cmp : ℕ → ℕ → ℤ} (hR : Rearranges cmp R) (h : Level w e i M (vals A a an))
    (han : a ≤ an) (ht : t ∈ binTasks e a i (weights (fun p => w p i) A a an) m) :
    Level w e t.si M (vals A₁ t.sa t.stop) := by
  obtain ⟨c, -, hce, -, rfl⟩ := mem_binTasks.1 ht
  have hbin : ∀ p ∈ vals A₁ (binStart (fun p => w p i) A a an c)
      (binStart (fun p => w p i) A a an (c + 1)), p ∈ vals A a an ∧ w p i = c := by
    intro p hp
    obtain ⟨x, hx, hxc, rfl⟩ := mem_vals.1 hp
    exact ⟨(hR.perm _ _ hdealt.rel).subset (mem_vals_self (le_binStart.trans hx)
      (hxc.trans_le (binStart_le han))), hdealt.bin c x hx hxc⟩
  rw [show (Task.mk (a + start (weights (fun p => w p i) A a an) c)
    ((weights (fun p => w p i) A a an).count c) (i + 1)).stop = _ from binTask_stop]
  exact ⟨fun p hp => h.ends p (hbin p hp).1, fun p hp => h.short p (hbin p hp).1,
    fun p hp q hq => (h.agree p (hbin p hp).1 q (hbin q hq).1).succ
      ((hbin p hp).2.trans (hbin q hq).2.symm) ((hbin p hp).2 ▸ hce)⟩

end

structure BinsDone (R : List ℕ → List ℕ → Prop) (w : ℕ → ℕ → ℕ) (e i : ℕ) (A : ℕ → ℕ) (a an : ℕ)
    (A₁ A₂ : ℕ → ℕ) : Prop where
  out : ∀ x, a ≤ x → x < an →
    (∀ t ∈ binTasks e a i (weights (fun p => w p i) A a an) 256, t.Misses x) → A₂ x = A₁ x
  rel : ∀ t ∈ binTasks e a i (weights (fun p => w p i) A a an) 256,
    R (vals A₂ t.sa t.stop) (vals A₁ t.sa t.stop)
  sorted : ∀ t ∈ binTasks e a i (weights (fun p => w p i) A a an) 256,
    SortedOn (byWeights w e) A₂ t.sa t.stop

section

variable {cmp : ℕ → ℕ → ℤ} (h : BinsDone R w e i A a an A₁ A₂)

include h

theorem BinsDone.bin (han : a ≤ an) (hc : c < 256) :
    (c ≠ e ∧ 1 < (weights (fun p => w p i) A a an).count c ∧
      R (vals A₂ (binStart (fun p => w p i) A a an c) (binStart (fun p => w p i) A a an (c + 1)))
        (vals A₁ (binStart (fun p => w p i) A a an c)
          (binStart (fun p => w p i) A a an (c + 1))) ∧
      SortedOn (byWeights w e) A₂ (binStart (fun p => w p i) A a an c)
        (binStart (fun p => w p i) A a an (c + 1))) ∨
    ((c = e ∨ (weights (fun p => w p i) A a an).count c ≤ 1) ∧
      ∀ x, binStart (fun p => w p i) A a an c ≤ x →
        x < binStart (fun p => w p i) A a an (c + 1) → A₂ x = A₁ x) := by
  by_cases htask : c ≠ e ∧ 1 < (weights (fun p => w p i) A a an).count c
  · have hmem := (mem_binTasks (a := a) (i := i)).2 ⟨c, hc, htask.1, htask.2, rfl⟩
    have hrel := h.rel _ hmem
    have hsorted := h.sorted _ hmem
    rw [show (Task.mk (a + start (weights (fun p => w p i) A a an) c)
      ((weights (fun p => w p i) A a an).count c) (i + 1)).stop = _ from binTask_stop]
      at hrel hsorted
    exact Or.inl ⟨htask.1, htask.2, hrel, hsorted⟩
  · refine Or.inr ⟨?_, fun x hx hxc => h.out x (le_binStart.trans hx)
      (hxc.trans_le (binStart_le han)) fun u hu => ?_⟩
    · rw [not_and_or, not_not, not_lt] at htask
      exact htask
    · obtain ⟨d, -, hde, hd, rfl⟩ := mem_binTasks.1 hu
      have hdc : d ≠ c := by
        rintro rfl
        exact htask ⟨hde, hd⟩
      rcases Nat.lt_or_gt_of_ne hdc with hlt | hgt
      · exact Or.inr (binTask_stop.trans_le ((binStart_mono hlt).trans hx))
      · exact Or.inl (hxc.trans_le (binStart_mono hgt))

theorem BinsDone.rel_upto (hR : Rearranges cmp R) (han : a ≤ an) (m : ℕ) (hm : m ≤ 256) :
    R (vals A₂ a (binStart (fun p => w p i) A a an m))
      (vals A₁ a (binStart (fun p => w p i) A a an m)) := by
  induction m with
  | zero =>
    have hzero : binStart (fun p => w p i) A a an 0 = a := by
      rw [binStart, start_eq_zero fun x _ => Nat.zero_le x, Nat.add_zero]
    rw [hzero, vals_eq_nil (Nat.le_refl a), vals_eq_nil (Nat.le_refl a)]
    exact hR.refl []
  | succ m ih =>
    rw [vals_append le_binStart (binStart_mono (Nat.le_succ m)),
      vals_append le_binStart (binStart_mono (Nat.le_succ m))]
    refine hR.append _ _ _ _ (ih (by omega)) ?_
    rcases h.bin han hm with ⟨-, -, hrel, -⟩ | ⟨-, hsame⟩
    · exact hrel
    · rw [vals_congr hsame]
      exact hR.refl _

theorem BinsDone.weight_eq (hdealt : Dealt R (fun p => w p i) A a an A₁) (hR : Rearranges cmp R)
    (han : a ≤ an) (hc : c < 256) (hx : binStart (fun p => w p i) A a an c ≤ x)
    (hxc : x < binStart (fun p => w p i) A a an (c + 1)) : w (A₂ x) i = c := by
  rcases h.bin han hc with ⟨-, -, hrel, -⟩ | ⟨-, hsame⟩
  · obtain ⟨y, hy, hyc, heq⟩ := mem_vals.1 ((hR.perm _ _ hrel).subset (mem_vals_self hx hxc))
    rw [← heq]
    exact hdealt.bin c y hy hyc
  · rw [hsame x hx hxc]
    exact hdealt.bin c x hx hxc

end

theorem exists_bin {w : ℕ → ℕ} (hx : a ≤ x) (m : ℕ) (hxm : x < binStart w A a an m) :
    ∃ c < m, binStart w A a an c ≤ x ∧ x < binStart w A a an (c + 1) := by
  induction m with
  | zero =>
    rw [binStart, start_eq_zero fun y _ => Nat.zero_le y] at hxm
    omega
  | succ m ih =>
    by_cases hlt : x < binStart w A a an m
    · obtain ⟨c, hc, h⟩ := ih hlt
      exact ⟨c, hc.trans (Nat.lt_succ_self m), h⟩
    · exact ⟨m, Nat.lt_succ_self m, not_lt.1 hlt, hxm⟩

theorem Dealt.sorted {cmp : ℕ → ℕ → ℤ} (hdealt : Dealt R (fun p => w p i) A a an A₁)
    (h : BinsDone R w e i A a an A₁ A₂) (hR : Rearranges cmp R)
    (hlevel : Level w e i M (vals A a an)) (han : a ≤ an)
    (hws : ∀ c ∈ weights (fun p => w p i) A a an, c < 256) :
    R (vals A₂ a an) (vals A a an) ∧ SortedOn (byWeights w e) A₂ a an := by
  have hend : binStart (fun p => w p i) A a an 256 = an := by
    rw [binStart, start_eq_length hws, weights, List.length_map, length_vals]
    omega
  have hrel : R (vals A₂ a an) (vals A a an) := by
    have hrel := h.rel_upto hR han 256 (Nat.le_refl _)
    rw [hend] at hrel
    exact hR.trans _ _ _ hrel hdealt.rel
  refine ⟨hrel, fun k l hk hkl hl => byWeights_nonpos.2 ?_⟩
  obtain ⟨c, hc, hck, hkc⟩ := exists_bin hk 256 (hend.symm ▸ hkl.trans hl)
  obtain ⟨d, hd, hdl, hld⟩ := exists_bin (hk.trans hkl.le) 256 (hend.symm ▸ hl)
  have hwk := h.weight_eq hdealt hR han hc hck hkc
  have hwl := h.weight_eq hdealt hR han hd hdl hld
  have hlevel₂ := hlevel.subset (hR.perm _ _ hrel).subset
  have hmk : A₂ k ∈ vals A₂ a an := mem_vals_self hk (hkl.trans hl)
  have hml : A₂ l ∈ vals A₂ a an := mem_vals_self (hk.trans hkl.le) hl
  have hagree := hlevel₂.agree _ hmk _ hml
  rcases Nat.lt_trichotomy c d with hlt | rfl | hgt
  · exact (key_lt (hlevel₂.ends _ hmk) (hlevel₂.ends _ hml) hagree (hwk ▸ hwl ▸ hlt)).le
  · rcases h.bin han hc with ⟨-, -, -, hsorted⟩ | ⟨rfl | hone, -⟩
    · exact byWeights_nonpos.1 (hsorted k l hck hkl hld)
    · exact (key_eq hagree hwk hwl).le
    · rw [binStart_succ] at hld
      omega
  · have := @binStart_mono (fun p => w p i) A a an (d + 1) c hgt
    omega

theorem bigLast_perm (pushed : List Task) (k : ℕ) : (bigLast pushed k).Perm pushed := by
  rw [bigLast]
  split_ifs with h
  · exact List.set_set_perm h.1 h.2
  · exact List.Perm.refl _

def Turns (R : List ℕ → List ℕ → Prop) (w : ℕ → ℕ → ℕ) (e M : ℕ)
    (turn : Task → RadixState → Option (List Task × RadixState)) : Prop :=
  ∀ t s, Tallied e (weights (fun p => w p t.si) s.a t.sa t.stop) s.tally →
    Level w e t.si M (vals s.a t.sa t.stop) →
    ∃ pushed s', turn t s = some (pushed, s') ∧
      pushed.Perm (binTasks e t.sa t.si (weights (fun p => w p t.si) s.a t.sa t.stop) 256) ∧
      s'.tally.count = 0 ∧ s'.tally.nc = 0 ∧
      Dealt R (fun p => w p t.si) s.a t.sa t.stop s'.a

section

variable {text : ℕ → UChar} {tr : UChar → UChar}

theorem weights_lt : ∀ c ∈ weights (fun p => weight text tr p i) A a an, c < 256 := by
  intro c hc
  obtain ⟨p, -, rfl⟩ := List.mem_map.1 hc
  exact (tr (text (p + i))).isLt

theorem piles_turn (clear : Bool) (he : e = 0 ∨ e = 255) {s : RadixState} (htally : Tallied e
      (weights (fun p => weight text tr p t.si) s.a t.sa t.stop) s.tally) :
    ∃ p, piles clear t.si (257 - s.tally.bmin) s.tally.bmin (eosPile e clear t.sa t.sn s.tally) =
        some p ∧
      Piled e t.sa t.si clear (weights (fun p => weight text tr p t.si) s.a t.sa t.stop) p := by
  have hlen : (weights (fun p => weight text tr p t.si) s.a t.sa t.stop).length = t.sn := by
    rw [weights, List.length_map, length_vals, Task.stop, Nat.add_sub_cancel_left]
  have hbmin := htally.bmin_le weights_lt
  refine piles_spec weights_lt he (piling_eosPile htally weights_lt hlen he) (fun h0 => ?_)
    (by omega) (by omega)
  rcases htally.bmin with hb | hb
  · omega
  · exact Nat.pos_of_ne_zero (h0 ▸ hb.2)

theorem turnA_spec (he : e = 0 ∨ e = 255) :
    Turns List.Perm (weight text tr) e M (turnA text tr e) := by
  intro t s htally _
  obtain ⟨p, hpiles, hpiled⟩ := piles_turn false he htally
  have hlen : t.stop - t.sa < t.sn + 1 := by
    rw [Task.stop, Nat.add_sub_cancel_left]
    exact Nat.lt_succ_self _
  obtain ⟨A', count', hpermute, hcount, hdealt⟩ := permute_spec (fun _ => rfl)
    (Nat.le_add_right t.sa t.sn) hpiled.count hpiled.top hlen
  refine ⟨bigLast p.pushed p.big, ⟨A', count', p.nc, s.tally.bmin⟩, ?_, ?_, hcount, hpiled.nc,
    hdealt⟩
  · rw [turnA, hpiles, Option.bind_eq_bind, Option.bind_some]
    dsimp only
    rw [hpermute]
    rfl
  · rw [← hpiled.pushed]
    exact bigLast_perm _ _

theorem turnB_spec (he : e = 0 ∨ e = 255) :
    Turns (Stably (byWeights (weight text tr) e)) (weight text tr) e M (turnB text tr e) := by
  intro t s htally hlevel
  obtain ⟨p, hpiles, hpiled⟩ := piles_turn true he htally
  have hne : ∀ q ∈ vals s.a t.sa t.stop, ∀ r ∈ vals s.a t.sa t.stop,
      weight text tr q t.si ≠ weight text tr r t.si → byWeights (weight text tr) e q r ≠ 0 := by
    intro q hq r hr hne
    have hagree := hlevel.agree q hq r hr
    rcases Nat.lt_or_gt_of_ne hne with hlt | hgt
    · have hkey := key_lt (hlevel.ends q hq) (hlevel.ends r hr) hagree hlt
      exact fun h0 => absurd (byWeights_nonneg.1 h0.ge) (not_le.2 hkey)
    · have hkey := key_lt (hlevel.ends r hr) (hlevel.ends q hq) hagree.symm hgt
      exact fun h0 => absurd (byWeights_nonpos.1 h0.le) (not_le.2 hkey)
  have hdealt : Dealt (Stably (byWeights (weight text tr) e)) (fun p => weight text tr p t.si) s.a
      t.sa t.stop (dealOut text tr t.si (fun k => s.a (t.sa + k)) t.sn s.a p.top) :=
    dealOut_spec comparison_byWeights (fun _ => rfl) rfl hpiled.top weights_lt hne
  refine ⟨bigLast p.pushed p.big, ⟨dealOut text tr t.si (fun k => s.a (t.sa + k)) t.sn s.a p.top,
    p.count, p.nc, s.tally.bmin⟩, ?_, ?_, ?_, hpiled.nc, hdealt⟩
  · rw [turnB, hpiles]
    rfl
  · rw [← hpiled.pushed]
    exact bigLast_perm _ _
  · exact funext hpiled.count

end

end Bsdi.Stdlib
