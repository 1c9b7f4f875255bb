import Bsdi.Regex.Sweep

/-!
# Both representations take the same steps

A set that `step` is given twice is read as it was over a `long`, and as it becomes over an array:
an array passes any number of anchors in one step, a `long` one. As many steps as anchors can be
passed make up for it.
-/

namespace Bsdi.Regex

theorem small_isset (v : BitVec 32) (n : Nat) : small.isset v n = v.getLsbD n := by
  by_cases hn : n < 32
  · have : (v &&& (1#32 <<< n) != 0) = v.getLsbD n := by
      rw [Bool.eq_iff_iff]
      simp only [bne_iff_ne, ne_eq]
      constructor
      · intro hne
        by_contra hbit
        apply hne
        apply BitVec.eq_of_getLsbD_eq
        intro i hi
        simp only [BitVec.getLsbD_and, BitVec.getLsbD_shiftLeft, BitVec.getLsbD_one]
        by_cases hin : i = n
        · subst hin
          simp [hbit]
        · have : i < n ∨ i - n ≠ 0 := by omega
          rcases this with h | h <;> simp [h]
      · intro hbit hzero
        have := congrArg (·.getLsbD n) hzero
        simp only [BitVec.getLsbD_and, hbit, BitVec.getLsbD_shiftLeft] at this
        simp [hn] at this
    exact this
  · have hv : v.getLsbD n = false := BitVec.getLsbD_of_ge v n (by omega)
    have hshift : 1#32 <<< n = 0 := by
      apply BitVec.eq_of_getLsbD_eq
      intro i hi
      have : i < n := by omega
      simp [this]
    simp [small, hv, hshift]

/-- The bits of a `long` from `N` on are clear. -/
def Clear (N : Nat) (v : BitVec 32) : Prop := ∀ i, N ≤ i → v.getLsbD i = false

theorem getLsbD_single {n i : Nat} (hn : n < 32) : (1#32 <<< n).getLsbD i = decide (i = n) := by
  simp only [BitVec.getLsbD_shiftLeft, BitVec.getLsbD_one]
  by_cases hi : i = n
  · subst hi
    simp [hn]
  · have : ¬ i < 32 ∨ i < n ∨ i - n ≠ 0 := by omega
    rcases this with h | h | h <;> simp [h, hi]

theorem getLsbD_fwd (dst src : BitVec 32) {here n i : Nat} (hn : here + n < 32) :
    (small.fwd dst src here n).getLsbD i =
      (dst.getLsbD i || (decide (i = here + n) && src.getLsbD here)) := by
  have hhere : here < 32 := by omega
  simp only [small, BitVec.getLsbD_or, BitVec.getLsbD_shiftLeft (_ &&& _), BitVec.getLsbD_and,
    getLsbD_single hhere]
  by_cases hi : i = here + n
  · subst hi
    simp [hn]
  · have : i < n ∨ i - n ≠ here := by omega
    rcases this with h | h <;> simp [h, hi]

theorem getLsbD_back (dst src : BitVec 32) {here n i : Nat} (hn : n ≤ here) (hhere : here < 32) :
    (small.back dst src here n).getLsbD i =
      (dst.getLsbD i || (decide (i = here - n) && src.getLsbD here)) := by
  simp only [small, BitVec.getLsbD_or, BitVec.getLsbD_ushiftRight, BitVec.getLsbD_and,
    getLsbD_single hhere]
  by_cases hi : i = here - n
  · subst hi
    simp [hn]
  · have : n + i ≠ here := by omega
    simp [this, hi]

theorem single_ushiftRight {here n : Nat} (hn : n ≤ here) (hhere : here < 32) :
    (1#32 <<< here) >>> n = 1#32 <<< (here - n) := by
  apply BitVec.eq_of_getLsbD_eq
  intro i _
  rw [BitVec.getLsbD_ushiftRight, getLsbD_single hhere, getLsbD_single (by omega)]
  simp only [decide_eq_decide]
  omega

theorem small_lawful {N : Nat} (hN : N ≤ 32) : small.Lawful N (Clear N) where
  clear := ⟨fun i _ => by simp [small], fun i => by simp [small]⟩
  set1 v n hv hn := by
    have hbit : ∀ i, (small.set1 v n).getLsbD i = (v.getLsbD i || decide (i = n)) := fun i => by
      simp only [small, BitVec.getLsbD_or, getLsbD_single (show n < 32 by omega)]
    refine ⟨fun i hi => ?_, fun i => by rw [small_isset, small_isset, hbit]⟩
    rw [hbit, hv i hi]
    have : i ≠ n := by omega
    simp [this]
  fwd dst src here n hd _ hn := by
    refine ⟨fun i hi => ?_, fun i => by
      rw [small_isset, small_isset, small_isset, getLsbD_fwd dst src (by omega)]⟩
    rw [getLsbD_fwd dst src (by omega), hd i hi]
    have : i ≠ here + n := by omega
    simp [this]
  back dst src here n hd _ hn hhere := by
    refine ⟨fun i hi => ?_, fun i => by
      rw [small_isset, small_isset, small_isset, getLsbD_back dst src hn (by omega)]⟩
    rw [getLsbD_back dst src hn (by omega), hd i hi]
    have : i ≠ here - n := by omega
    simp [this]
  issetback v here n _ hn hhere := by
    simp only [small, single_ushiftRight hn (show here < 32 by omega)]
  eq a b _ _ := by
    simp only [small_isset]
    constructor
    · intro h i
      rw [show a = b by simpa [small] using h]
    · intro h
      have : a = b := BitVec.eq_of_getLsbD_eq fun i _ => h i
      simp [small, this]
  bound v i hv hi := by rw [small_isset, hv i hi]

theorem getD_set (v : List Bool) {n i : Nat} (b : Bool) (hn : n < v.length) :
    (v.set n b).getD i false = if i = n then b else v.getD i false := by
  simp only [List.getD_eq_getElem?_getD, List.getElem?_set]
  by_cases hi : i = n
  · subst hi
    simp [hn]
  · have : n ≠ i := fun h => hi h.symm
    simp [hi, this]

theorem large_lawful (N : Nat) : (large N).Lawful N (·.length = N) where
  clear := ⟨by simp [large], fun i => by
    simp only [large, List.getD_eq_getElem?_getD, List.getElem?_replicate]
    by_cases hi : i < N <;> simp [hi]⟩
  set1 v n hv hn := by
    refine ⟨by simp [large, hv], fun i => ?_⟩
    simp only [large, getD_set v true (show n < v.length by omega)]
    by_cases hi : i = n <;> simp [hi]
  fwd dst src here n hd _ hn := by
    refine ⟨by simp [large, hd], fun i => ?_⟩
    simp only [large, getD_set dst _ (show here + n < dst.length by omega)]
    by_cases hi : i = here + n <;> simp [hi]
  back dst src here n hd _ hn hhere := by
    refine ⟨by simp [large, hd], fun i => ?_⟩
    simp only [large, getD_set dst _ (show here - n < dst.length by omega)]
    by_cases hi : i = here - n <;> simp [hi]
  issetback v here n _ _ _ := rfl
  eq a b ha hb := by
    simp only [large, beq_iff_eq]
    constructor
    · rintro rfl i
      rfl
    · intro h
      apply List.ext_getElem (ha.trans hb.symm)
      intro i hia hib
      simpa [List.getD_eq_getElem?_getD, hia, hib] using h i
  bound v i hv hi := by
    simp only [large, List.getD_eq_getElem?_getD]
    rw [List.getElem?_eq_none (by omega)]
    rfl

section reach

variable (g : Guts) (start stop : Nat) (ch : Code)

def Move (p q : Nat) : Prop := start ≤ p ∧ p < stop ∧ q ∈ moves g p

def Pass (p q : Nat) : Prop := start ≤ p ∧ p < stop ∧ (g.op p).passes g ch = true ∧ q = p + 1

/-- What is reached without a character where the anchors `ch` hold. -/
def Reach : Nat → Nat → Prop :=
  Relation.ReflTransGen fun p q => Move g start stop p q ∨ Pass g start stop ch p q

/-- What is reached with at most so many anchors passed. -/
inductive Within : Nat → Nat → Nat → Prop
  | refl (k p : Nat) : Within k p p
  | move {k p q r : Nat} : Within k p q → Move g start stop q r → Within k p r
  | pass {k p q r : Nat} : Within k p q → Pass g start stop ch q r → Within (k + 1) p r

/-- No state is reached by passing more than `k` anchors only. -/
def Few (k : Nat) : Prop := ∀ p q, Reach g start stop ch p q → Within g start stop ch k p q

variable {g start stop ch}

theorem few_none (h : ∀ s r, ¬ Pass g start stop ch s r) (k : Nat) : Few g start stop ch k := by
  intro p q hreach
  induction hreach with
  | refl => exact .refl k p
  | tail _ hstep ih =>
    rcases hstep with hm | hp
    · exact ih.move hm
    · exact absurd hp (h _ _)

theorem Within.succ_cases {k p q : Nat} (h : Within g start stop ch (k + 1) p q) :
    Within g start stop ch k p q ∨
      ∃ s r, Within g start stop ch k p s ∧ Pass g start stop ch s r := by
  generalize hk : k + 1 = k' at h
  induction h with
  | refl k' p => exact .inl (.refl k p)
  | move _ hm ih =>
    rcases ih hk with hw | hs
    · exact .inl (hw.move hm)
    · exact .inr hs
  | @pass j p q r hw hp =>
    obtain rfl : k = j := by omega
    exact .inr ⟨q, r, hw, hp⟩

theorem few_one (h : ∀ s s' r r', Pass g start stop ch s r → Pass g start stop ch s' r' → s = s') :
    Few g start stop ch 1 := by
  intro p q hreach
  induction hreach with
  | refl => exact .refl 1 p
  | @tail q r _ hstep ih =>
    rcases hstep with hm | hp
    · exact ih.move hm
    · rcases ih.succ_cases with hw | ⟨s, r', hw, hp'⟩
      · exact hw.pass hp
      · obtain rfl := h s q r' r hp' hp
        exact hw.pass hp

end reach

section step

variable {σ : Type} {g : Guts} {start stop : Nat} {ch : Code} {rep : Rep σ} {Valid : σ → Prop}

theorem reads_const {b : σ} (hb : Valid b) : Reads rep Valid fun _ => b where
  valid _ _ := hb
  near _ _ _ _ h := h

theorem reads_id : Reads rep Valid fun aft => aft where
  valid _ h := h
  near _ _ _ h := h

abbrev Moves (g : Guts) (start stop : Nat) : Nat → Nat → Prop :=
  Relation.ReflTransGen (Move g start stop)

theorem has_step (ch : Code) (l : rep.Lawful g.nstates Valid) (hpart : Part g start stop)
    {v v' : σ} (hv : Valid v) (hv' : Valid v') :
    Valid (step rep g start stop v ch v') ∧ ∀ i, rep.Has (step rep g start stop v ch v') i ↔
      ∃ j, (rep.Has v' j ∨ ∃ s, Pass g start stop ch s j ∧ rep.Has v s) ∧
        Moves g start stop j i := by
  have h := stepLoop_turns ch l hpart (reads_const hv) hv'
  refine ⟨h.valid, fun i => ⟨?_, ?_⟩⟩
  · apply h.least
    · exact fun i hi => ⟨i, .inl hi, .refl⟩
    · rintro s hs hlt ⟨j, hj, hm⟩ t ht
      exact ⟨j, hj, hm.tail ⟨hs, hlt, ht⟩⟩
    · intro a _ s hs hlt hp hb
      exact ⟨s + 1, .inr ⟨s, ⟨hs, hlt, hp, rfl⟩, hb⟩, .refl⟩
  · rintro ⟨j, hj, hm⟩
    have hj' : rep.Has (step rep g start stop v ch v') j := by
      rcases hj with hj | ⟨s, ⟨hs, hlt, hp, rfl⟩, hb⟩
      · exact h.keeps j hj
      · exact (h.settled s hs hlt).passes hp hb
    induction hm with
    | refl => exact hj'
    | tail _ hmove ih => exact (h.settled _ hmove.1 hmove.2.1).moves ih _ hmove.2.2

/-- What `step` does to a set that is passed twice, copied or shared. -/
structure Stepped (rep : Rep σ) (g : Guts) (Valid : σ → Prop) (start stop : Nat) (ch : Code)
    (v v' : σ) : Prop where
  valid : Valid v'
  keeps : ∀ i, rep.Has v i → rep.Has v' i
  closed : ∀ p q, Move g start stop p q → rep.Has v' p → rep.Has v' q
  passes : ∀ p q, Pass g start stop ch p q → rep.Has v p → rep.Has v' q
  shared : rep.shared = true → ∀ p q, Pass g start stop ch p q → rep.Has v' p → rep.Has v' q
  reach : ∀ i, rep.Has v' i → ∃ p, rep.Has v p ∧ Reach g start stop ch p i

theorem stepSame_stepped (ch : Code) (l : rep.Lawful g.nstates Valid) (hpart : Part g start stop)
    {v : σ} (hv : Valid v) : Stepped rep g Valid start stop ch v (stepSame rep g start stop ch v) := by
  have hmoves : ∀ s, start ≤ s → s < stop → (∃ p, rep.Has v p ∧ Reach g start stop ch p s) →
      ∀ t ∈ moves g s, ∃ p, rep.Has v p ∧ Reach g start stop ch p t := by
    rintro s hs hlt ⟨p, hp, hreach⟩ t ht
    exact ⟨p, hp, hreach.tail (.inl ⟨hs, hlt, ht⟩)⟩
  unfold stepSame
  by_cases hshared : rep.shared = true
  · -- an anchor is passed from the states that are there by then
    simp only [hshared, if_true]
    have h := stepLoop_turns ch l hpart reads_id hv
    have hpass : ∀ p q, Pass g start stop ch p q → rep.Has (stepLoop rep g stop (fun aft => aft) ch
        g.turns start v) p → rep.Has (stepLoop rep g stop (fun aft => aft) ch g.turns start v) q := by
      rintro p q ⟨hs, hlt, hps, rfl⟩ hp
      exact (h.settled p hs hlt).passes hps hp
    refine ⟨h.valid, h.keeps, fun p q hm hp => (h.settled p hm.1 hm.2.1).moves hp q hm.2.2,
      fun p q hp hv => hpass p q hp (h.keeps p hv), fun _ => hpass, ?_⟩
    · apply h.least _ (fun i hi => ⟨i, hi, .refl⟩) hmoves
      intro a ha s hs hlt hps hb
      obtain ⟨p, hp, hreach⟩ := ha s hb
      exact ⟨p, hp, hreach.tail (.inr ⟨hs, hlt, hps, rfl⟩)⟩
  · -- an anchor is passed from the states that were there before
    simp only [hshared]
    have h := stepLoop_turns ch l hpart (reads_const hv) hv
    refine ⟨h.valid, h.keeps, fun p q hm hp => (h.settled p hm.1 hm.2.1).moves hp q hm.2.2, ?_,
      fun hs => absurd hs hshared, ?_⟩
    · rintro p q ⟨hs, hlt, hps, rfl⟩ hp
      exact (h.settled p hs hlt).passes hps hp
    · apply h.least _ (fun i hi => ⟨i, hi, .refl⟩) hmoves
      intro a _ s hs hlt hps hb
      exact ⟨s, hb, .single (.inr ⟨hs, hlt, hps, rfl⟩)⟩

def Closed (rep : Rep σ) (g : Guts) (start stop : Nat) (v : σ) : Prop :=
  ∀ p q, Move g start stop p q → rep.Has v p → rep.Has v q

theorem iterate_stepped (ch : Code) (l : rep.Lawful g.nstates Valid) (hpart : Part g start stop)
    {v : σ} (hv : Valid v) (hclosed : Closed rep g start stop v) (k : Nat) :
    Valid ((stepSame rep g start stop ch)^[k] v) ∧
      Closed rep g start stop ((stepSame rep g start stop ch)^[k] v) ∧
      (∀ i, rep.Has v i → rep.Has ((stepSame rep g start stop ch)^[k] v) i) ∧
      ∀ i, rep.Has ((stepSame rep g start stop ch)^[k] v) i →
        ∃ p, rep.Has v p ∧ Reach g start stop ch p i := by
  induction k with
  | zero => exact ⟨hv, hclosed, fun i hi => hi, fun i hi => ⟨i, hi, .refl⟩⟩
  | succ k ih =>
    obtain ⟨ihv, -, ihkeeps, ihreach⟩ := ih
    rw [Function.iterate_succ_apply']
    have h := stepSame_stepped ch l hpart ihv
    refine ⟨h.valid, h.closed, fun i hi => h.keeps i (ihkeeps i hi), fun i hi => ?_⟩
    obtain ⟨q, hq, hqi⟩ := h.reach i hi
    obtain ⟨p, hp, hpq⟩ := ihreach q hq
    exact ⟨p, hp, hpq.trans hqi⟩

theorem iterate_within (l : rep.Lawful g.nstates Valid) (hpart : Part g start stop) {v : σ}
    (hv : Valid v) (hclosed : Closed rep g start stop v) {k p q : Nat}
    (hw : Within g start stop ch k p q) (hp : rep.Has v p) :
    rep.Has ((stepSame rep g start stop ch)^[k] v) q := by
  induction hw with
  | refl k p => exact (iterate_stepped ch l hpart hv hclosed k).2.2.1 p hp
  | @move k p q r _ hm ih => exact (iterate_stepped ch l hpart hv hclosed k).2.1 q r hm (ih hp)
  | @pass k p q r _ hm ih =>
    rw [Function.iterate_succ_apply']
    have h := stepSame_stepped ch l hpart (iterate_stepped ch l hpart hv hclosed k).1
    exact h.passes q r hm (ih hp)

/-- `k` steps are enough for the anchors `ch`. -/
def Enough (rep : Rep σ) (g : Guts) (start stop : Nat) (ch : Code) (k : Nat) : Prop :=
  Few g start stop ch k ∨ rep.shared = true ∧ 0 < k

theorem has_iterate (l : rep.Lawful g.nstates Valid) (hpart : Part g start stop) {v : σ}
    (hv : Valid v) (hclosed : Closed rep g start stop v) {k : Nat}
    (henough : Enough rep g start stop ch k) (i : Nat) :
    rep.Has ((stepSame rep g start stop ch)^[k] v) i ↔
      ∃ p, rep.Has v p ∧ Reach g start stop ch p i := by
  refine ⟨(iterate_stepped ch l hpart hv hclosed k).2.2.2 i, ?_⟩
  rintro ⟨p, hp, hreach⟩
  rcases henough with hfew | ⟨hshared, hk⟩
  · exact iterate_within l hpart hv hclosed (hfew p i hreach) hp
  · obtain ⟨k, rfl⟩ : ∃ j, k = j + 1 := ⟨k - 1, by omega⟩
    have hk := iterate_stepped ch l hpart hv hclosed k
    rw [Function.iterate_succ_apply']
    have h := stepSame_stepped ch l hpart hk.1
    induction hreach with
    | refl => exact h.keeps p (hk.2.2.1 p hp)
    | tail _ hstep ih =>
      rcases hstep with hm | hps
      · exact h.closed _ _ hm ih
      · exact h.shared hshared _ _ hps ih

theorem passes_nothing (s : Sop) : s.passes g .nothing = false := by
  cases s <;> rfl

theorem has_initial (l : rep.Lawful g.nstates Valid) (hpart : Part g start stop) :
    Valid (initial rep g start stop) ∧
      ∀ i, rep.Has (initial rep g start stop) i ↔ Moves g start stop start i := by
  have hset := l.set1 rep.clear start l.clear.1 (lt_of_le_of_lt hpart.le hpart.lt)
  have hhas : ∀ i, rep.Has (rep.set1 rep.clear start) i ↔ i = start := fun i => by
    simp [Rep.Has, hset.2, l.clear.2]
  have h := stepSame_stepped .nothing l hpart hset.1
  refine ⟨h.valid, fun i => ⟨fun hi => ?_, fun hm => ?_⟩⟩
  · obtain ⟨p, hp, hreach⟩ := h.reach i hi
    rw [(hhas p).1 hp] at hreach
    refine hreach.lift id ?_
    rintro a b (hm | hp)
    · exact hm
    · simp [Pass, passes_nothing] at hp
  · induction hm with
    | refl => exact h.keeps start ((hhas start).2 rfl)
    | tail _ hmove ih => exact h.closed _ _ hmove ih

end step

section same

variable {σ τ : Type} {g : Guts} {start stop : Nat} {r₁ : Rep σ} {r₂ : Rep τ}
  {V₁ : σ → Prop} {V₂ : τ → Prop}

/-- One set of states over two representations, closed under the empty moves of a part. -/
structure Same (r₁ : Rep σ) (r₂ : Rep τ) (V₁ : σ → Prop) (V₂ : τ → Prop) (g : Guts)
    (start stop : Nat) (v : σ) (w : τ) : Prop where
  left : V₁ v
  right : V₂ w
  has : ∀ i, r₁.Has v i ↔ r₂.Has w i
  closed : Closed r₁ g start stop v

variable (l₁ : r₁.Lawful g.nstates V₁) (l₂ : r₂.Lawful g.nstates V₂) (hpart : Part g start stop)

theorem Same.closed_right {v : σ} {w : τ} (h : Same r₁ r₂ V₁ V₂ g start stop v w) :
    Closed r₂ g start stop w := fun p q hm hp =>
  (h.has q).1 (h.closed p q hm ((h.has p).2 hp))

include l₁ l₂ hpart in
theorem Same.step (ch : Code) {v v' : σ} {w w' : τ} (h : Same r₁ r₂ V₁ V₂ g start stop v w)
    (hv' : V₁ v') (hw' : V₂ w') (h' : ∀ i, r₁.Has v' i ↔ r₂.Has w' i) :
    Same r₁ r₂ V₁ V₂ g start stop (step r₁ g start stop v ch v')
      (step r₂ g start stop w ch w') := by
  have h₁ := has_step ch l₁ hpart h.left hv'
  have h₂ := has_step ch l₂ hpart h.right hw'
  refine ⟨h₁.1, h₂.1, fun i => ?_, fun p q hm hp => ?_⟩
  · simp only [h₁.2, h₂.2, h.has, h']
  · obtain ⟨j, hj, hmoves⟩ := (h₁.2 p).1 hp
    exact (h₁.2 q).2 ⟨j, hj, hmoves.tail hm⟩

include l₁ l₂ hpart in
theorem Same.initial :
    Same r₁ r₂ V₁ V₂ g start stop (initial r₁ g start stop) (initial r₂ g start stop) := by
  have h₁ := has_initial l₁ hpart
  have h₂ := has_initial l₂ hpart
  refine ⟨h₁.1, h₂.1, fun i => (h₁.2 i).trans (h₂.2 i).symm, fun p q hm hp => ?_⟩
  exact (h₁.2 q).2 (((h₁.2 p).1 hp).tail hm)

include l₁ l₂ hpart in
theorem Same.iterate {ch : Code} {v : σ} {w : τ} (h : Same r₁ r₂ V₁ V₂ g start stop v w) {k : Nat}
    (hfew : Few g start stop ch k) :
    Same r₁ r₂ V₁ V₂ g start stop ((stepSame r₁ g start stop ch)^[k] v)
      ((stepSame r₂ g start stop ch)^[k] w) := by
  have h₁ := iterate_stepped ch l₁ hpart h.left h.closed k
  have h₂ := iterate_stepped ch l₂ hpart h.right h.closed_right k
  refine ⟨h₁.1, h₂.1, fun i => ?_, h₁.2.1⟩
  simp only [has_iterate l₁ hpart h.left h.closed (.inl hfew),
    has_iterate l₂ hpart h.right h.closed_right (.inl hfew), h.has]

end same

end Bsdi.Regex
