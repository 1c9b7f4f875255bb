import Bsdi.Stdlib.Tasks

/-!
# `radixsort` and `sradixsort` sort

A run of the loop over the stack sorts the parts that lie on it, and leaves the static variables as
they were. The stack never overflows, and where the function calls itself, the histogram is that
of the part it is called for.
-/

namespace Bsdi.Stdlib

open Bsdi.Lib Function

variable {text : ℕ → UChar} {tr : UChar → UChar} {e M : ℕ} {A : ℕ → ℕ} {t : Task} {s : RadixState}
  {P stack : List Task} {R : List ℕ → List ℕ → Prop} {order : List ℕ → List ℕ}
  {turn : Task → RadixState → Option (List Task × RadixState)}

def Runs (R : List ℕ → List ℕ → Prop) (w : ℕ → ℕ → ℕ) (e : ℕ) (P : List Task) (s : RadixState)
    (run : ℕ → Option RadixState) : Prop :=
  ∃ s' least, (∀ fuel, least ≤ fuel → run fuel = some s') ∧ Done R w e P s.a s'.a ∧
    s'.tally.count = 0 ∧ s'.tally.nc = 0

theorem Ready.replace {w : ℕ → ℕ → ℕ} (hR : Rearranges (byWeights w e) R) {A₁ : ℕ → ℕ}
    {pushed : List Task} (h : Ready w e M A (t :: stack))
    (hdealt : Dealt R (fun p => w p t.si) A t.sa t.stop A₁)
    (hpushed : pushed.Perm
      (binTasks e t.sa t.si (weights (fun p => w p t.si) A t.sa t.stop) 256)) :
    Ready w e M A₁ (pushed.reverse ++ stack) := by
  have hothers : Ready w e M A₁ stack := h.others hdealt.out
  have hstop : t.sa ≤ t.stop := Nat.le_add_right _ _
  have hperm := pushed.reverse_perm.trans hpushed
  refine ⟨List.pairwise_append.2 ⟨?_, hothers.apart, fun u hu v hv => ?_⟩, fun u hu => ?_⟩
  · exact (hperm.pairwise_iff fun h => h.symm).2 (binTasks_apart 256)
  · -- a bin lies in the part
    obtain ⟨c, -, -, -, rfl⟩ := mem_binTasks.1 (hperm.subset hu)
    have hlow := @le_binStart (fun p => w p t.si) A t.sa t.stop c
    have hhigh := @binStart_le (fun p => w p t.si) A t.sa t.stop (c + 1) hstop
    rcases (List.pairwise_cons.1 h.apart).1 v hv with hv | hv
    · exact Or.inl ((binTask_stop.trans_le hhigh).trans hv)
    · exact Or.inr (hv.trans hlow)
  · rcases List.mem_append.1 hu with hu | hu
    · exact hdealt.level hR (h.level t List.mem_cons_self) hstop (hperm.subset hu)
    · exact hothers.level u hu

theorem Done.replace (hR : Rearranges (byWeights (weight text tr) e) R) {A₁ A₂ : ℕ → ℕ}
    {pushed : List Task} (h : Ready (weight text tr) e M A (t :: stack))
    (hdealt : Dealt R (fun p => weight text tr p t.si) A t.sa t.stop A₁)
    (hpushed : pushed.Perm
      (binTasks e t.sa t.si (weights (fun p => weight text tr p t.si) A t.sa t.stop) 256))
    (hdone : Done R (weight text tr) e (pushed.reverse ++ stack) A₁ A₂) :
    Done R (weight text tr) e (t :: stack) A A₂ := by
  have hstop : t.sa ≤ t.stop := Nat.le_add_right _ _
  have hapart := (List.pairwise_cons.1 h.apart).1
  have hperm := pushed.reverse_perm.trans hpushed
  have hbins : BinsDone R (weight text tr) e t.si A t.sa t.stop A₁ A₂ := by
    refine ⟨fun x hx hxt hout => hdone.out x fun u hu => ?_, fun u hu => ?_, fun u hu => ?_⟩
    · rcases List.mem_append.1 hu with hu | hu
      · exact hout u (hperm.subset hu)
      · exact (hapart u hu).misses hx hxt
    · exact hdone.rel u (List.mem_append_left _ (hperm.symm.subset hu))
    · exact hdone.sorted u (List.mem_append_left _ (hperm.symm.subset hu))
  obtain ⟨hrel, hsorted⟩ :=
    hdealt.sorted hbins hR (h.level t List.mem_cons_self) hstop weights_lt
  refine ⟨fun x hx => ?_, fun u hu => ?_, fun u hu => ?_⟩
  · have hxt := hx t List.mem_cons_self
    rw [hdone.out x fun u hu => ?_, hdealt.out x hxt]
    rcases List.mem_append.1 hu with hu | hu
    · obtain ⟨c, -, -, -, rfl⟩ := mem_binTasks.1 (hperm.subset hu)
      rcases hxt with hlt | hge
      · exact Or.inl (hlt.trans_le le_binStart)
      · exact Or.inr ((binTask_stop.trans_le (binStart_le hstop)).trans hge)
    · exact hx u (List.mem_cons_of_mem _ hu)
  · rcases List.mem_cons.1 hu with rfl | hu
    · exact hrel
    · have hsame : vals A₁ u.sa u.stop = vals A u.sa u.stop := vals_congr fun x hx hxu =>
        hdealt.out x ((hapart u hu).symm.misses hx hxu)
      rw [← hsame]
      exact hdone.rel u (List.mem_append_right _ hu)
  · rcases List.mem_cons.1 hu with rfl | hu
    · exact hsorted
    · exact hdone.sorted u (List.mem_append_right _ hu)

theorem turn_run (hR : Rearranges (byWeights (weight text tr) e) R)
    (hturn : Turns R (weight text tr) e M turn) (hready : Ready (weight text tr) e M s.a
      (t :: stack))
    (hlarge : threshold ≤ t.sn)
    (htally : Tallied e (weights (fun p => weight text tr p t.si) s.a t.sa t.stop) s.tally)
    (hroom : stack.length + s.tally.nc ≤ stackSize)
    (ih : ∀ (Q : List Task) (s₁ : RadixState), size M Q < size M (t :: stack) →
      Q.length ≤ stackSize → Ready (weight text tr) e M s₁.a Q → s₁.tally.count = 0 →
      s₁.tally.nc = 0 →
      Runs R (weight text tr) e Q s₁ fun fuel => stackLoop text tr e order turn fuel Q s₁) :
    Runs R (weight text tr) e (t :: stack) s fun fuel => (turn t s).bind fun r =>
      stackLoop text tr e order turn fuel (r.1.reverse ++ stack) r.2 := by
  have hlevel := hready.level t List.mem_cons_self
  obtain ⟨pushed, s₁, hrun, hpushed, hcount, hnc, hdealt⟩ := hturn t s htally hlevel
  have hpos : 0 < t.sn := (show 0 < threshold by decide).trans_le hlarge
  have hM : t.si ≤ M := hlevel.le (mem_vals_self (A := s.a) (Nat.le_refl t.sa)
    (Nat.lt_add_of_pos_right hpos))
  have hlen : (weights (fun p => weight text tr p t.si) s.a t.sa t.stop).length = t.sn := by
    rw [weights, List.length_map, length_vals, Task.stop, Nat.add_sub_cancel_left]
  have hperm := pushed.reverse_perm.trans hpushed
  have hsize : size M (pushed.reverse ++ stack) < size M (t :: stack) := by
    have hlt := size_turn (e := e) hlen hpos hM 256
    rw [size_append, size_perm hperm, size_cons]
    rw [size_cons] at hlt
    exact Nat.add_lt_add_right hlt _
  have hfits : (pushed.reverse ++ stack).length ≤ stackSize := by
    have hcard : (binTasks e t.sa t.si
        (weights (fun p => weight text tr p t.si) s.a t.sa t.stop) 256).length ≤
        (bins e (weights (fun p => weight text tr p t.si) s.a t.sa t.stop)).card :=
      (length_binTasks 256 (Nat.le_refl _)).trans (Finset.card_filter_le _ _)
    rw [← htally.nc] at hcard
    rw [List.length_append, hperm.length_eq]
    omega
  obtain ⟨s', least, hleast, hdone, hend⟩ :=
    ih _ s₁ hsize hfits (hready.replace hR hdealt hpushed) hcount hnc
  refine ⟨s', least, fun fuel hfuel => ?_, hdone.replace hR hready hdealt hpushed, hend⟩
  dsimp only
  rw [hrun]
  exact hleast fuel hfuel

theorem stackLoop_run (hR : Rearranges (byWeights (weight text tr) e) R)
    (hturn : Turns R (weight text tr) e M turn) (horder : ∀ l, (order l).Perm l)
    (hstack : P.length ≤ stackSize) (hready : Ready (weight text tr) e M s.a P)
    (hcount : s.tally.count = 0) (hnc : s.tally.nc = 0) :
    Runs R (weight text tr) e P s fun fuel => stackLoop text tr e order turn fuel P s := by
  induction hm : size M P using Nat.strong_induction_on generalizing P s with
  | _ m ih =>
    subst hm
    cases P with
    | nil =>
      refine ⟨s, 1, fun fuel hfuel => ?_, ⟨fun x _ => rfl, fun u hu => absurd hu List.not_mem_nil,
        fun u hu => absurd hu List.not_mem_nil⟩, hcount, hnc⟩
      obtain ⟨fuel, rfl⟩ := Nat.exists_eq_add_of_le' hfuel
      rfl
    | cons t stack =>
      have hlevel := hready.level t List.mem_cons_self
      have hapart := (List.pairwise_cons.1 hready.apart).1
      have hless : size M stack < size M (t :: stack) := by
        rw [size_cons]
        omega
      rw [List.length_cons] at hstack
      -- the tasks behind the first one, when that is done
      have hothers : ∀ s₁ : RadixState, Done R (weight text tr) e [t] s.a s₁.a → s₁.tally.count = 0
        →
          s₁.tally.nc = 0 → ∃ s' least, (∀ fuel, least ≤ fuel →
            stackLoop text tr e order turn fuel stack s₁ = some s') ∧
            Done R (weight text tr) e (t :: stack) s.a s'.a ∧ s'.tally.count = 0 ∧
            s'.tally.nc = 0 := by
        intro s₁ hdone hcount₁ hnc₁
        have hready₁ : Ready (weight text tr) e M s₁.a stack :=
          hready.others fun x hx => hdone.out x fun u hu => by
            rw [List.mem_singleton.1 hu]
            exact hx
        obtain ⟨s', least, hleast, hdone', hend⟩ :=
          ih _ hless (by omega) hready₁ hcount₁ hnc₁ rfl
        exact ⟨s', least, hleast, hdone.cons hapart hdone', hend⟩
      by_cases hsmall : t.sn < threshold
      · obtain ⟨A', hsimple, hstable, hout, hsorted⟩ := simplesort_spec hlevel
        have hdone : Done R (weight text tr) e [t] s.a A' := by
          refine ⟨fun x hx => hout x (hx t (List.mem_singleton.2 rfl)), fun u hu => ?_,
            fun u hu => ?_⟩
          · rw [List.mem_singleton.1 hu]
            exact hR.stable _ _ hstable
          · rw [List.mem_singleton.1 hu]
            exact hsorted
        obtain ⟨s', least, hleast, hall⟩ := hothers { s with a := A' } hdone hcount hnc
        refine ⟨s', least + M + 2, fun fuel hfuel => ?_, hall⟩
        obtain ⟨fuel, rfl⟩ := Nat.exists_eq_add_of_le' hfuel
        have hrun : stackLoop text tr e order turn (fuel + (least + M + 2)) (t :: stack) s =
            (simplesort text tr e (fuel + (least + M + 1)) t.sa t.sn t.si s.a).bind fun A =>
              stackLoop text tr e order turn (fuel + (least + M + 1)) stack { s with a := A } :=
          if_pos hsmall
        rw [hsimple _ (by omega), Option.bind_some] at hrun
        exact hrun.trans (hleast _ (by omega))
      · have hws : ∀ c ∈ order (weights (fun p => weight text tr p t.si) s.a t.sa t.stop),
            c < 256 := fun c hc => weights_lt c ((horder _).subset hc)
        have htally := (tallied_histogram (e := e) hcount hnc hws).perm (horder _)
        generalize hs₁ : histogram e (order (weights (fun p => weight text tr p t.si) s.a t.sa
          t.stop)) s.tally = tally₁ at htally
        have hturnRun : ∀ fuel (stack : List Task) (s₁ : RadixState), ¬s₁.tally.nc = 0 →
            stackLoop text tr e order turn (fuel + 1) (t :: stack) s₁ =
              (turn t s₁).bind fun r =>
                stackLoop text tr e order turn fuel (r.1.reverse ++ stack) r.2 := by
          intro fuel stack s₁ hnc₁
          rw [stackLoop, if_neg hsmall, if_neg hnc₁]
          rfl
        have hrun : ∀ fuel, stackLoop text tr e order turn (fuel + 1) (t :: stack) s =
            if stackSize < stack.length + tally₁.nc then
              (stackLoop text tr e order turn fuel [t] { s with tally := tally₁ }).bind fun s₁ =>
                stackLoop text tr e order turn fuel stack s₁
            else (turn t { s with tally := tally₁ }).bind fun r =>
              stackLoop text tr e order turn fuel (r.1.reverse ++ stack) r.2 := by
          intro fuel
          rw [← hs₁, stackLoop, if_neg hsmall, if_pos hnc]
          rfl
        have hturns := fun (stack' : List Task) (hready' : Ready (weight text tr) e M s.a
            (t :: stack')) (hroom : stack'.length + tally₁.nc ≤ stackSize)
            (hsize : size M (t :: stack') ≤ size M (t :: stack)) =>
          turn_run (s := { s with tally := tally₁ }) hR hturn hready' (not_lt.1 hsmall) htally
            hroom fun Q s₁ hQ hlen hreadyQ hcountQ hncQ =>
              ih _ (hQ.trans_le hsize) hlen hreadyQ hcountQ hncQ rfl
        by_cases hover : stackSize < stack.length + tally₁.nc
        · -- the bins do not fit, and the function calls itself
          have hcard : tally₁.nc ≤ 256 := by
            rw [htally.nc]
            exact (Finset.card_filter_le _ _).trans (Finset.card_range 256).le
          have hnc₁ : ¬tally₁.nc = 0 := by omega
          have hone : Ready (weight text tr) e M s.a [t] :=
            ⟨List.pairwise_singleton _ _, fun u hu => by
              rw [List.mem_singleton.1 hu]
              exact hlevel⟩
          obtain ⟨s₁, least₁, hleast₁, hdone₁, hcount₁, hnc₁'⟩ := hturns [] hone
            (by rw [List.length_nil, Nat.zero_add]; exact hcard.trans (by decide))
            (by rw [size_cons, size_cons]; exact Nat.add_le_add_left (Nat.zero_le _) _)
          obtain ⟨s', least, hleast, hall⟩ := hothers s₁ hdone₁ hcount₁ hnc₁'
          refine ⟨s', least + least₁ + 2, fun fuel hfuel => ?_, hall⟩
          obtain ⟨fuel, rfl⟩ := Nat.exists_eq_add_of_le' hfuel
          have hnested : stackLoop text tr e order turn (fuel + (least + least₁ + 1)) [t]
              { s with tally := tally₁ } = some s₁ := by
            rw [← hleast₁ (fuel + (least + least₁)) (by omega)]
            exact hturnRun _ [] _ hnc₁
          have hstep := hrun (fuel + (least + least₁ + 1))
          rw [if_pos hover, hnested, Option.bind_some] at hstep
          exact hstep.trans (hleast _ (by omega))
        · obtain ⟨s', least, hleast, hall⟩ := hturns stack hready (not_lt.1 hover) (Nat.le_refl _)
          refine ⟨s', least + 1, fun fuel hfuel => ?_, hall⟩
          obtain ⟨fuel, rfl⟩ := Nat.exists_eq_add_of_le' hfuel
          have hstep := hrun (fuel + least)
          rw [if_neg hover] at hstep
          exact hstep.trans (hleast _ (by omega))

/-- The weights of the string at `p`, with that of its terminator. -/
noncomputable def stringWeights (text : ℕ → UChar) (tr : UChar → UChar) (endch : UChar) (p : ℕ) :
    List ℕ :=
  (List.range (sInf {k | text (p + k) = endch} + 1)).map (weight text tr p)

/-- The array of `n` strings is sorted by their weights, and the static variables are as before. -/
structure Sorts (text : ℕ → UChar) (tr : UChar → UChar) (endch : UChar) (n : ℕ) (s s' : RadixState)
  :
    Prop where
  perm : (vals s'.a 0 n).Perm (vals s.a 0 n)
  sorted : (vals s'.a 0 n).Pairwise fun p q =>
    stringWeights text tr endch p ≤ stringWeights text tr endch q
  out : ∀ k, n ≤ k → s'.a k = s.a k
  count : s'.tally.count = 0
  nc : s'.tally.nc = 0

theorem tr0_eq_zero (endch c : UChar) : tr0 endch c = 0 ↔ c = endch := by
  rw [tr0]
  split_ifs with h₁ h₂
  · have hlt := Fin.lt_def.1 h₁
    have hval := Fin.val_add_one_of_lt (h₁.trans_le (Fin.le_last endch))
    refine ⟨fun h => ?_, fun h => absurd h h₁.ne⟩
    rw [h, Fin.val_zero] at hval
    exact absurd hval (Nat.zero_ne_add_one _)
  · exact ⟨fun _ => h₂, fun _ => rfl⟩
  · refine ⟨fun h => absurd ?_ h₁, fun h => absurd h h₂⟩
    exact lt_of_le_of_ne (h ▸ Fin.zero_le endch) h₂

theorem setup_spec {tab : Option (UChar → UChar)} {endch : UChar} (h : TableOk endch tab) :
    ∃ tr e, setup tab endch = some (tr, e) ∧ (e = 0 ∨ e = 255) ∧
      ∀ c, (tr c : ℕ) = e ↔ c = endch := by
  cases tab with
  | none =>
    refine ⟨tr0 endch, 0, rfl, Or.inl rfl, fun c => ?_⟩
    rw [← tr0_eq_zero endch c, Fin.ext_iff, Fin.val_zero]
  | some tr =>
    obtain ⟨hweight, honly⟩ := h
    have hval : (tr endch : ℕ) = 0 ∨ (tr endch : ℕ) = 255 :=
      hweight.imp (congrArg Fin.val) (congrArg Fin.val)
    refine ⟨tr, tr endch, if_neg fun h' => hval.elim h'.1 h'.2, hval, fun c => ?_⟩
    rw [← Fin.ext_iff]
    exact ⟨honly c, congrArg tr⟩

section

variable {endch : UChar} {n : ℕ}

theorem key_eq_stringWeights (htr : ∀ c, (tr c : ℕ) = e ↔ c = endch) (p : ℕ) :
    key (weight text tr) e p = stringWeights text tr endch p := by
  have hset : {k | weight text tr p k = e} = {k | text (p + k) = endch} :=
    Set.ext fun k => htr (text (p + k))
  rw [key, ending, hset, stringWeights]

theorem exists_level (htr : ∀ c, (tr c : ℕ) = e ↔ c = endch) (l : List ℕ)
    (hl : ∀ p ∈ l, ∃ j, text (p + j) = endch) : ∃ M, Level (weight text tr) e 0 M l := by
  have hbound : ∃ M, ∀ p ∈ l, ending (weight text tr) e p ≤ M := by
    induction l with
    | nil => exact ⟨0, fun p hp => absurd hp List.not_mem_nil⟩
    | cons p l ih =>
      obtain ⟨M, hM⟩ := ih fun q hq => hl q (List.mem_cons_of_mem _ hq)
      refine ⟨max (ending (weight text tr) e p) M, fun q hq => ?_⟩
      rcases List.mem_cons.1 hq with rfl | hq
      · exact Nat.le_max_left _ _
      · exact (hM q hq).trans (Nat.le_max_right _ _)
  obtain ⟨M, hM⟩ := hbound
  refine ⟨M, fun p hp => ?_, hM, fun p _ q _ j hj => absurd hj (Nat.not_lt_zero j)⟩
  obtain ⟨j, hj⟩ := hl p hp
  exact ⟨j, (htr _).2 hj⟩

theorem Sorts.of_sortedOn {s' : RadixState} (htr : ∀ c, (tr c : ℕ) = e ↔ c = endch)
    (hperm : (vals s'.a 0 n).Perm (vals s.a 0 n))
    (hsorted : SortedOn (byWeights (weight text tr) e) s'.a 0 n)
    (hout : ∀ k, n ≤ k → s'.a k = s.a k) (hcount : s'.tally.count = 0) (hnc : s'.tally.nc = 0) :
    Sorts text tr endch n s s' := by
  refine ⟨hperm, hsorted.sorted.imp fun {p q} hle => ?_, hout, hcount, hnc⟩
  rw [← key_eq_stringWeights htr, ← key_eq_stringWeights htr]
  exact byWeights_nonpos.1 hle

theorem stable_stringWeights {l l' : List ℕ} (htr : ∀ c, (tr c : ℕ) = e ↔ c = endch)
    (h : Stably (byWeights (weight text tr) e) l' l) (p : ℕ) :
    (l'.filter fun q => stringWeights text tr endch q = stringWeights text tr endch p) =
      l.filter fun q => stringWeights text tr endch q = stringWeights text tr endch p := by
  have hiff : ∀ q, byWeights (weight text tr) e p q = 0 ↔
      stringWeights text tr endch q = stringWeights text tr endch p := by
    intro q
    rw [← key_eq_stringWeights htr, ← key_eq_stringWeights htr]
    constructor
    · exact fun h0 => le_antisymm (byWeights_nonneg.1 h0.ge) (byWeights_nonpos.1 h0.le)
    · exact fun h0 => le_antisymm (byWeights_nonpos.2 h0.ge) (byWeights_nonneg.2 h0.le)
  have horder := h.order p
  rw [equals, equals] at horder
  simpa only [hiff] using horder

theorem sort_whole (hR : Rearranges (byWeights (weight text tr) e) R)
    (hturn : ∀ M, Turns R (weight text tr) e M turn) (horder : ∀ l, (order l).Perm l)
    (htr : ∀ c, (tr c : ℕ) = e ↔ c = endch) (hterm : ∀ k < n, ∃ j, text (s.a k + j) = endch)
    (hcount : s.tally.count = 0) (hnc : s.tally.nc = 0) :
    ∃ s' least, (∀ fuel, least ≤ fuel →
        stackLoop text tr e order turn fuel [⟨0, n, 0⟩] s = some s') ∧
      R (vals s'.a 0 n) (vals s.a 0 n) ∧ Sorts text tr endch n s s' := by
  obtain ⟨M, hlevel⟩ := exists_level htr (vals s.a 0 n) fun p hp => by
    obtain ⟨k, -, hk, rfl⟩ := mem_vals.1 hp
    exact hterm k hk
  have hstop : (Task.mk 0 n 0).stop = n := Nat.zero_add n
  have hready : Ready (weight text tr) e M s.a [⟨0, n, 0⟩] :=
    ⟨List.pairwise_singleton _ _, fun u hu => by
      rw [List.mem_singleton.1 hu, hstop]
      exact hlevel⟩
  obtain ⟨s', least, hleast, hdone, hcount', hnc'⟩ :=
    stackLoop_run hR (hturn M) horder (by rw [List.length_singleton]; decide) hready hcount hnc
  have hrel := hdone.rel _ List.mem_cons_self
  have hsorted := hdone.sorted _ List.mem_cons_self
  rw [hstop] at hrel hsorted
  refine ⟨s', least, hleast, hrel,
    Sorts.of_sortedOn htr (hR.perm _ _ hrel) hsorted (fun k hk => ?_) hcount' hnc'⟩
  refine hdone.out k fun u hu => ?_
  rw [List.mem_singleton.1 hu]
  exact Or.inr (hstop.trans_le hk)

end

/-- `radixsort` and `sradixsort` sort the strings by their weights, the second stably, and leave
the static variables zero. -/
theorem radixsort_sorts (text : ℕ → UChar) (tab : Option (UChar → UChar)) (endch : UChar) (n : ℕ)
    (s : RadixState) (htab : TableOk endch tab) (hterm : ∀ k < n, ∃ j, text (s.a k + j) = endch)
    (hcount : s.tally.count = 0) (hnc : s.tally.nc = 0) :
    ∃ tr e, setup tab endch = some (tr, e) ∧
      (∃ s' least, (∀ fuel, least ≤ fuel → radixsort text fuel n tab endch s = some (0, s')) ∧
        Sorts text tr endch n s s') ∧
      ∃ s' least,
        (∀ fuel, least ≤ fuel → sradixsort text fuel n tab endch true s = some (0, s')) ∧
        Sorts text tr endch n s s' ∧
        ∀ p, ((vals s'.a 0 n).filter fun q =>
            stringWeights text tr endch q = stringWeights text tr endch p) =
          (vals s.a 0 n).filter fun q =>
            stringWeights text tr endch q = stringWeights text tr endch p := by
  obtain ⟨tr, e, hsetup, he, htr⟩ := setup_spec htab
  refine ⟨tr, e, hsetup, ?_, ?_⟩
  · obtain ⟨s', least, hleast, -, hsorts⟩ := sort_whole (rearranges_perm _)
      (fun _ => turnA_spec he) (fun l => (List.Perm.refl l : (id l).Perm l)) htr hterm hcount hnc
    refine ⟨s', least, fun fuel hfuel => ?_, hsorts⟩
    have hsort : rSortA text tr e fuel 0 n 0 s = some s' := hleast fuel hfuel
    rw [radixsort, hsetup]
    dsimp only
    rw [hsort]
    rfl
  · by_cases hsmall : n < threshold
    · obtain ⟨M, hlevel⟩ := exists_level htr (vals s.a 0 (0 + n)) fun p hp => by
        obtain ⟨k, -, hk, rfl⟩ := mem_vals.1 hp
        exact hterm k (by omega)
      obtain ⟨A', hsimple, hstable, hout, hsorted⟩ := simplesort_spec hlevel
      rw [Nat.zero_add] at hstable hout hsorted
      refine ⟨{ s with a := A' }, M + 1, fun fuel hfuel => ?_,
        Sorts.of_sortedOn htr hstable.perm hsorted (fun k hk => hout k (Or.inr hk)) hcount hnc,
        stable_stringWeights htr hstable⟩
      rw [sradixsort, hsetup]
      dsimp only
      rw [if_pos hsmall, hsimple fuel hfuel]
      rfl
    · obtain ⟨s', least, hleast, hstable, hsorts⟩ := sort_whole (rearranges_stably _)
        (fun _ => turnB_spec he) (fun l => List.reverse_perm l) htr hterm hcount hnc
      refine ⟨s', least, fun fuel hfuel => ?_, hsorts, stable_stringWeights htr hstable⟩
      rw [sradixsort, hsetup]
      dsimp only
      rw [if_neg hsmall, if_pos rfl, rSortB, hleast fuel hfuel]
      rfl

theorem radixsort_sorts_hundreds :
    ∃ tr e, setup none 0 = some (tr, e) ∧
      (∃ s' least, (∀ fuel, least ≤ fuel →
          radixsort (fun x => if x % 2 = 0 then Fin.ofNat 256 (97 + x % 7) else 0) fuel 600 none 0
            ⟨fun k => 2 * (k % 50), ⟨0, 0, 0⟩⟩ = some (0, s')) ∧
        Sorts (fun x => if x % 2 = 0 then Fin.ofNat 256 (97 + x % 7) else 0) tr 0 600
          ⟨fun k => 2 * (k % 50), ⟨0, 0, 0⟩⟩ s') ∧
      ∃ s' least, (∀ fuel, least ≤ fuel →
          sradixsort (fun x => if x % 2 = 0 then Fin.ofNat 256 (97 + x % 7) else 0) fuel 600 none
            0 true ⟨fun k => 2 * (k % 50), ⟨0, 0, 0⟩⟩ = some (0, s')) ∧
        Sorts (fun x => if x % 2 = 0 then Fin.ofNat 256 (97 + x % 7) else 0) tr 0 600
          ⟨fun k => 2 * (k % 50), ⟨0, 0, 0⟩⟩ s' ∧
        ∀ p, ((vals s'.a 0 600).filter fun q =>
            stringWeights (fun x => if x % 2 = 0 then Fin.ofNat 256 (97 + x % 7) else 0) tr 0 q =
              stringWeights (fun x => if x % 2 = 0 then Fin.ofNat 256 (97 + x % 7) else 0) tr 0
                p) =
          (vals (fun k => 2 * (k % 50)) 0 600).filter fun q =>
            stringWeights (fun x => if x % 2 = 0 then Fin.ofNat 256 (97 + x % 7) else 0) tr 0 q =
              stringWeights (fun x => if x % 2 = 0 then Fin.ofNat 256 (97 + x % 7) else 0) tr 0
                p :=
  radixsort_sorts _ none 0 600 ⟨fun k => 2 * (k % 50), ⟨0, 0, 0⟩⟩ trivial
    (fun k _ => ⟨1, if_neg (by dsimp only; omega)⟩) rfl rfl

end Bsdi.Stdlib
