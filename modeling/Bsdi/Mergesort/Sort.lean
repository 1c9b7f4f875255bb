import Bsdi.Mergesort.Merging
import Bsdi.Mergesort.Setup

/-!
# The passes

Every pass merges the runs two by two into the other array, until one run is left.
-/

namespace Bsdi.Mergesort

open Bsdi.Lib

variable {cmp : Elem → Elem → ℤ} {size n a b c i j k r step : ℕ} {mem mem' mem₁ : Mem}
  {links data : ℕ}

theorem Threaded.lt (h : Threaded cmp size mem links data r i n) : i + 4 ≤ n := by
  obtain ⟨m, hruns, -, hm⟩ := h.split
  have := hruns.le
  omega

theorem Threaded.congr (h : Threaded cmp size mem links data r i n)
    (hlinks : Same mem mem' (cell size links i) (cell size links n))
    (hdata : Same mem mem' (cell size data i) (cell size data n)) :
    Threaded cmp size mem' links data r i n := by
  obtain ⟨m, hruns, hlast, hm⟩ := h.split
  have him := hruns.le
  have hmn : m ≤ n := (Nat.le_add_right m 4).trans hm
  refine ⟨m, hruns.congr (fun x h₁ h₂ => hlinks x h₁ ?_) (fun x h₁ h₂ => hdata x h₁ ?_),
    hlast.congr (fun x h₁ h₂ => hlinks x ?_ h₂) (fun x h₁ h₂ => hdata x ?_ h₂), hm⟩
  · exact h₂.trans_le (cell_le hmn)
  · exact h₂.trans_le (cell_le hmn)
  · exact (cell_le him).trans h₁
  · exact (cell_le him).trans h₁

theorem Threaded.cons (h : Threaded cmp size mem links data r j n)
    (first : Run cmp size mem links data i j) : Threaded cmp size mem links data (r + 1) i n := by
  obtain ⟨m, hruns, hlast, hm⟩ := h.split
  exact ⟨m, Runs.cons first hruns, hlast, hm⟩

theorem Threaded.uncons (h : Threaded cmp size mem links data r i n) :
    ∃ j, Run cmp size mem links data i j ∧
      (r = 0 ∧ j = n ∨ ∃ r', r = r' + 1 ∧ Threaded cmp size mem links data r' j n) := by
  obtain ⟨m, hruns, hlast, hm⟩ := h.split
  cases hruns with
  | nil => exact ⟨n, hlast, Or.inl ⟨rfl, rfl⟩⟩
  | cons first rest => exact ⟨_, first, Or.inr ⟨_, rfl, _, rest, hlast, hm⟩⟩

theorem Threaded.runs (h : Threaded cmp size mem links data r i n) :
    Runs cmp size mem links data (r + 1) i n := by
  obtain ⟨m, hruns, hlast, -⟩ := h.split
  exact hruns.snoc hlast

theorem Threaded.link_iff (h : Threaded cmp size mem links data r i n)
    (hp : Places size n links data) : link mem (cell size links i) = cell size links n ↔ r = 0 := by
  obtain ⟨j, hrun, hrest⟩ := h.uncons
  rw [hrun.link, cell_inj hp.pos]
  rcases hrest with ⟨hr, hj⟩ | ⟨r', rfl, hrest⟩
  · exact ⟨fun _ => hr, fun _ => hj⟩
  · have := hrest.lt
    omega

theorem merged_place (hsize : 2 ≤ size) (hij : i + 4 ≤ j) :
    eval (cell size links i) + 4 ≤ cell size links j := by
  have hcell : cell size links (i + 4) ≤ cell size links j := cell_le hij
  rw [cell_add] at hcell
  have := eval_le (cell size links i)
  omega

/-- Part of a pass, up to element `c`: the runs before it are merged into the other array. -/
structure Partway (cmp : Elem → Elem → ℤ) (size n links data : ℕ) (mem mem' : Mem) (r a c : ℕ) :
    Prop where
  le : c ≤ n
  merged : ∃ r', Runs cmp size mem' data links r' a c
  rest : c = n ∨ ∃ r', Threaded cmp size mem' links data r' c n
  whole : c = n → Threaded cmp size mem' data links (r / 2) a n
  stably : Stably cmp (elts size mem' links a (c - a)) (elts size mem data a (c - a))
  change : Change size links data a c mem mem'

theorem Change.symm (h : Change size links data i j mem mem') :
    Change size data links i j mem mem' := fun x h₁ h₂ => h x h₂ h₁

section Pass

variable (h : Comparison cmp) (hp : Places size n links data) (hstep : step ∣ size)

include h hp hstep

theorem round_spec (big : Bool) (hab : a ≤ b) (hbc : b ≤ c) (hac : a + 4 ≤ c) (hc : c ≤ n)
    (hfirst : Sorted cmp (elts size mem data a (b - a)))
    (hsecond : Sorted cmp (elts size mem data b (c - b))) :
    ∃ s, mergeLoop cmp size step (cell size data b) (cell size data c)
        (cell size data c - cell size data a + 1)
        ⟨mem, cell size data a, cell size data b, cell size links a, big⟩ = s ∧
      s.tp2 = cell size links c ∧
      Run cmp size (setLink s.mem (cell size data a) (cell size data c)) data links a c ∧
      Stably cmp (elts size (setLink s.mem (cell size data a) (cell size data c)) links a (c - a))
        (elts size mem data a (c - a)) ∧
      Change size links data a c mem (setLink s.mem (cell size data a) (cell size data c)) := by
  have hnil : elts size mem links a (a - a) = [] := by
    rw [Nat.sub_self]
    rfl
  have hm : Merge cmp size links data mem a b c
      ⟨mem, cell size data a, cell size data b, cell size links a, big⟩ a b a := by
    refine ⟨rfl, rfl, rfl, rfl, Nat.le_refl a, hab, Nat.le_refl b, hbc, Within.refl, ?_, ?_, ?_⟩
    · rwa [hnil]
    · rwa [hnil]
    · rw [hnil, List.nil_append, ← elts_split hab hbc]
      exact Stably.refl _
  have hfuel : b + c < a + b + (cell size data c - cell size data a + 1) := by
    have : c - a ≤ (c - a) * size := Nat.le_mul_of_pos_right _ hp.pos
    rw [cell, cell, Nat.add_sub_add_left, ← Nat.sub_mul]
    omega
  obtain ⟨s, hs, htp2, hwithin, hsorted, hstably⟩ := mergeLoop_spec h hp hstep hc hm hfuel
  have hplace : eval (cell size data a) + 4 ≤ cell size data c := merged_place hp.two hac
  have hlink : Same s.mem (setLink s.mem (cell size data a) (cell size data c))
      (cell size links a) (cell size links c) := setLink_data hp.symm hplace hc hc
  refine ⟨s, hs, htp2, run_of_link hp.symm (by omega) hc hplace hsorted, ?_, ?_⟩
  · rwa [elts_data hlink (by omega)]
  · have hmerge : Change size links data a c mem s.mem := fun x h₁ _ => hwithin x h₁
    have hchange : Change size data links a c s.mem
        (setLink s.mem (cell size data a) (cell size data c)) := setLink_change hplace
    exact hmerge.trans hchange.symm

theorem mergePass_spec (fuel : ℕ) (big : Bool) (ht : Threaded cmp size mem links data r a n) :
    ∃ c, Partway cmp size n links data mem (mergePass cmp size step data links (cell size links n)
        fuel (cell size links a) (cell size data a) (cell size links a) big mem).2 r a c ∧
      (r < 2 * fuel → c = n) := by
  induction fuel generalizing r a mem big with
  | zero =>
    have := ht.lt
    refine ⟨a, ⟨by omega, ⟨0, Runs.nil⟩, Or.inr ⟨r, ht⟩, fun ha => by omega, ?_, Change.refl⟩,
      fun hr => by omega⟩
    rw [Nat.sub_self]
    exact Stably.refl _
  | succ fuel ih =>
    have hlt := ht.lt
    have hback : ∀ x, data + (cell size links x - links) = cell size data x := fun x => by
      rw [cell, cell, Nat.add_sub_cancel_left]
    have hne : ∀ {x}, x < n → cell size links x ≠ cell size links n := fun hx heq =>
      absurd ((cell_inj hp.pos).1 heq) hx.ne
    have hend : ∀ {l t : ℕ} {big : Bool} {m : Mem}, mergePass cmp size step data links
        (cell size links n) fuel (cell size links n) l t big m = (big, m) := fun {l t big m} => by
      cases fuel with
      | zero => rfl
      | succ fuel => rw [mergePass, if_pos rfl]
    rw [mergePass, if_neg (hne (by omega))]
    dsimp only
    -- a round that merges the last runs
    have hlast : ∀ b, a ≤ b → b ≤ n → r / 2 = 0 → Sorted cmp (elts size mem data a (b - a)) →
        Sorted cmp (elts size mem data b (n - b)) →
        Partway cmp size n links data mem (mergePass cmp size step data links (cell size links n)
          fuel (cell size links n) (cell size data n)
          (mergeLoop cmp size step (cell size data b) (cell size data n)
            (cell size data n - cell size data a + 1)
            ⟨mem, cell size data a, cell size data b, cell size links a, big⟩).tp2
          (mergeLoop cmp size step (cell size data b) (cell size data n)
            (cell size data n - cell size data a + 1)
            ⟨mem, cell size data a, cell size data b, cell size links a, big⟩).big
          (setLink (mergeLoop cmp size step (cell size data b) (cell size data n)
            (cell size data n - cell size data a + 1)
            ⟨mem, cell size data a, cell size data b, cell size links a, big⟩).mem
            (cell size data a) (cell size data n))).2 r a n := by
      intro b hab hbn hr hfirst hsecond
      obtain ⟨s, hs, htp2, hrun, hstably, hchange⟩ := round_spec h hp hstep big hab hbn hlt
        (Nat.le_refl n) hfirst hsecond
      rw [hs, hend]
      refine ⟨Nat.le_refl n, ⟨1, Runs.cons hrun Runs.nil⟩, Or.inl rfl, fun _ => ?_, hstably,
        hchange⟩
      rw [hr]
      exact ⟨a, Runs.nil, hrun, hlt⟩
    obtain ⟨b, hrun₁, hrest⟩ := ht.uncons
    have hab := hrun₁.two
    rw [hrun₁.link]
    rcases hrest with ⟨rfl, rfl⟩ | ⟨r₁, rfl, hrest⟩
    · rw [if_neg (not_not.2 rfl), hback]
      refine ⟨b, hlast b (by omega) (Nat.le_refl b) rfl hrun₁.sorted ?_, fun _ => rfl⟩
      rw [Nat.sub_self]
      exact List.Pairwise.nil
    · obtain ⟨c, hrun₂, hrest₂⟩ := hrest.uncons
      have hbc := hrun₂.two
      have hbn := hrest.lt
      rw [if_pos (hne (by omega)), hrun₂.link, hback, hback]
      rcases hrest₂ with ⟨rfl, rfl⟩ | ⟨r₂, rfl, hrest₂⟩
      · exact ⟨c, hlast b (by omega) (by omega) rfl hrun₁.sorted hrun₂.sorted, fun _ => rfl⟩
      · have hcn := hrest₂.lt
        have hc : c ≤ n := by omega
        obtain ⟨s, hs, htp2, hrun, hstably, hchange⟩ := round_spec h hp hstep big
          (by omega) (by omega) (by omega) hc hrun₁.sorted hrun₂.sorted
        rw [hs, htp2]
        generalize setLink s.mem (cell size data a) (cell size data c) = mem₁ at *
        have hrest₁ := hrest₂.congr
          (hchange.same_links hp hc (Nat.le_refl n) (Or.inr (Nat.le_refl c)))
          (hchange.same_data hp hc (Nat.le_refl n) (Or.inr (Nat.le_refl c)))
        obtain ⟨e, hpart, hdone⟩ := ih s.big hrest₁
        generalize (mergePass cmp size step data links (cell size links n) fuel (cell size links c)
          (cell size data c) (cell size links c) s.big mem₁).2 = mem₂ at *
        obtain ⟨he, ⟨r', hmerged⟩, hleft, hwhole, hstably₂, hchange₂⟩ := hpart
        have hce := hmerged.le
        have hrun' := hrun.congr
          (hchange₂.symm.same_links hp.symm he hc (Or.inl (Nat.le_refl c)))
          (hchange₂.symm.same_data hp.symm he hc (Or.inl (Nat.le_refl c)))
        refine ⟨e, ⟨he, ⟨r' + 1, Runs.cons hrun' hmerged⟩, hleft, fun hen => ?_, ?_, ?_⟩,
          fun hr => hdone (by omega)⟩
        · rw [show (r₂ + 1 + 1) / 2 = r₂ / 2 + 1 by omega]
          exact (hwhole hen).cons hrun'
        · have hsplit : ∀ (m : Mem) (t : ℕ), elts size m t a (e - a) =
              elts size m t a (c - a) ++ elts size m t c (e - c) := fun m t =>
            elts_split (by omega) hce
          rw [hsplit mem₂, hsplit mem, elts_data
            (hchange₂.symm.same_data hp.symm he hc (Or.inl (Nat.le_refl c))) (by omega)]
          refine hstably.append ?_
          rw [← elts_data (hchange.same_data hp hc he (Or.inr (Nat.le_refl c))) hce]
          exact hstably₂
        · exact (hchange.mono (Nat.le_refl a) hce).trans
            (hchange₂.mono (by omega) (Nat.le_refl e))

end Pass

/-- The links from element `i` on delimit sorted runs of all elements up to `k`. -/
inductive Delimits (cmp : Elem → Elem → ℤ) (size : ℕ) (mem : Mem) (links data : ℕ) :
    ℕ → ℕ → Prop
  | nil {i : ℕ} : Delimits cmp size mem links data i i
  | cons {i j k : ℕ} (lt : i < j) (link : link mem (cell size links i) = cell size links j)
      (sorted : Sorted cmp (elts size mem data i (j - i)))
      (rest : Delimits cmp size mem links data j k) : Delimits cmp size mem links data i k

theorem Runs.delimits (h : Runs cmp size mem links data r i j) :
    Delimits cmp size mem links data i j := by
  induction h with
  | nil => exact Delimits.nil
  | cons first _ ih =>
    have := first.two
    exact Delimits.cons (by omega) first.link first.sorted ih

/-- The state before each round of the outer loop, with `r + 1` runs. -/
structure Sound (cmp : Elem → Elem → ℤ) (size n base scratch : ℕ) (mem : Mem) (r : ℕ)
    (s : Sorting) : Prop where
  places : Places size n s.list2 s.list1
  arrays : s.list1 = base ∧ s.list2 = scratch ∨ s.list1 = scratch ∧ s.list2 = base
  threaded : Threaded cmp size s.mem s.list2 s.list1 r 0 n
  stably : Stably cmp (elts size s.mem s.list1 0 n) (elts size mem base 0 n)

/-- After a part of a pass, runs are delimited in both arrays, and no element is lost. -/
def Intact (cmp : Elem → Elem → ℤ) (size n base : ℕ) (mem : Mem) (s : Sorting) (mem' : Mem) :
    Prop :=
  ∃ c ≤ n, Delimits cmp size mem' s.list1 s.list2 0 c ∧ Delimits cmp size mem' s.list2 s.list1 c n ∧
    Stably cmp (elts size mem' s.list2 0 c ++ elts size mem' s.list1 c (n - c))
      (elts size mem base 0 n)

section Passes

variable (h : Comparison cmp) (hstep : step ∣ size) {base scratch : ℕ} {s : Sorting}

include h hstep

theorem Sound.intact (hs : Sound cmp size n base scratch mem r s) (rounds : ℕ) :
    Intact cmp size n base mem s (mergePass cmp size step s.list1 s.list2 (s.list2 + n * size)
      rounds s.list2 s.list1 s.list2 s.big s.mem).2 := by
  obtain ⟨c, hpart, -⟩ := mergePass_spec h hs.places hstep rounds s.big hs.threaded
  rw [cell_zero, cell_zero] at hpart
  obtain ⟨hc, ⟨r', hmerged⟩, hrest, -, hstably, hchange⟩ := hpart
  refine ⟨c, hc, hmerged.delimits, ?_, ?_⟩
  · rcases hrest with rfl | ⟨r'', hrest⟩
    · exact Delimits.nil
    · exact hrest.runs.delimits
  · have hsplit : elts size s.mem s.list1 0 n =
        elts size s.mem s.list1 0 (c - 0) ++ elts size s.mem s.list1 c (n - c) :=
      elts_split (Nat.zero_le c) hc
    refine Stably.trans ?_ hs.stably
    rw [hsplit]
    refine hstably.append ?_
    rw [← elts_data (hchange.same_data hs.places hc (Nat.le_refl n) (Or.inr (Nat.le_refl c))) hc]
    exact Stably.refl _

theorem Sound.pass (hs : Sound cmp size n base scratch mem r s) :
    Sound cmp size n base scratch mem (r / 2) (pass cmp size step n s) := by
  have hruns := hs.threaded.runs.two_mul_le
  obtain ⟨c, hpart, hdone⟩ := mergePass_spec h hs.places hstep n s.big hs.threaded
  obtain rfl := hdone (by omega)
  rw [cell_zero, cell_zero] at hpart
  exact ⟨hs.places.symm, hs.arrays.symm.imp And.symm And.symm, hpart.whole rfl,
    hpart.stably.trans hs.stably⟩

theorem Sound.passes (fuel : ℕ) (hs : Sound cmp size n base scratch mem r s) :
    ∃ r', Sound cmp size n base scratch mem r' (passes cmp size step n fuel s) ∧
      (r ≤ fuel → r' = 0) := by
  induction fuel generalizing r s with
  | zero => exact ⟨r, hs, fun hr => Nat.le_zero.1 hr⟩
  | succ fuel ih =>
    have hiff := hs.threaded.link_iff hs.places
    rw [cell_zero] at hiff
    rw [Mergesort.passes]
    by_cases hdone : s.Done size n
    · rw [if_pos hdone]
      exact ⟨r, hs, fun _ => hiff.1 hdone⟩
    · rw [if_neg hdone]
      obtain ⟨r', hs', hzero⟩ := ih (hs.pass h hstep)
      exact ⟨r', hs', fun hle => hzero (by omega)⟩

end Passes

end Bsdi.Mergesort
