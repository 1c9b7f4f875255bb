import Bsdi.Regex.Engine
import Mathlib.Data.Finset.Card
import Mathlib.Tactic.Ring

/-!
# One sweep is a closure

`step` runs over the operators of a part of the strip once, and goes back at the end of a loop
that has new states. What it leaves is the closure of the set it began with under the empty moves,
over either representation.
-/

namespace Bsdi.Regex

variable {σ : Type} {rep : Rep σ} {g : Guts}

def moves (g : Guts) (pc : Nat) : List Nat :=
  match g.op pc with
  | .oback_ _ | .o_back _ | .oplus_ _ | .o_quest _ | .olparen _ | .orparen _ | .o_ch _ => [pc + 1]
  | .o_plus n => [pc + 1, pc - n]
  | .oquest_ n | .och_ n => [pc + 1, pc + n]
  | .oor1 _ =>
    match findCh g g.nstates (pc + 1) with
    | some e => [pc + (e - pc)]
    | none => []
  | .oor2 n =>
    match g.op (pc + n) with
    | .o_ch _ => [pc + 1]
    | _ => [pc + 1, pc + n]
  | _ => []

/-- A part of the strip: no move from inside leaves it except to its end. -/
structure Part (g : Guts) (start stop : Nat) : Prop where
  le : start ≤ stop
  lt : stop < g.nstates
  within : ∀ pc, start ≤ pc → pc < stop → ∀ t ∈ moves g pc, start ≤ t ∧ t ≤ stop
  loop : ∀ pc, start ≤ pc → pc < stop → ∀ n, g.op pc = .o_plus n → start + n ≤ pc

/-- A representation of sets of states below `N`. -/
structure Rep.Lawful (rep : Rep σ) (N : Nat) (Valid : σ → Prop) : Prop where
  clear : Valid rep.clear ∧ ∀ i, rep.isset rep.clear i = false
  set1 : ∀ v n, Valid v → n < N →
    Valid (rep.set1 v n) ∧ ∀ i, rep.isset (rep.set1 v n) i = (rep.isset v i || decide (i = n))
  fwd : ∀ dst src here n, Valid dst → Valid src → here + n < N →
    Valid (rep.fwd dst src here n) ∧ ∀ i, rep.isset (rep.fwd dst src here n) i =
      (rep.isset dst i || (decide (i = here + n) && rep.isset src here))
  back : ∀ dst src here n, Valid dst → Valid src → n ≤ here → here < N →
    Valid (rep.back dst src here n) ∧ ∀ i, rep.isset (rep.back dst src here n) i =
      (rep.isset dst i || (decide (i = here - n) && rep.isset src here))
  issetback : ∀ v here n, Valid v → n ≤ here → here < N →
    rep.issetback v here n = rep.isset v (here - n)
  eq : ∀ a b, Valid a → Valid b → (rep.eq a b = true ↔ ∀ i, rep.isset a i = rep.isset b i)
  bound : ∀ v i, Valid v → N ≤ i → rep.isset v i = false

variable {Valid : σ → Prop}

def Rep.Has (rep : Rep σ) (v : σ) (i : Nat) : Prop := rep.isset v i = true

section visit

variable {bef : σ → σ} {ch : Code} {pc : Nat} {aft : σ}

theorem has_fwd (h : rep.Lawful g.nstates Valid) {dst src : σ} {here n i : Nat} (hd : Valid dst)
    (hs : Valid src) (hn : here + n < g.nstates) :
    rep.Has (rep.fwd dst src here n) i ↔ rep.Has dst i ∨ i = here + n ∧ rep.Has src here := by
  simp [Rep.Has, (h.fwd dst src here n hd hs hn).2 i]

theorem has_back (h : rep.Lawful g.nstates Valid) {dst src : σ} {here n i : Nat} (hd : Valid dst)
    (hs : Valid src) (hn : n ≤ here) (hlt : here < g.nstates) :
    rep.Has (rep.back dst src here n) i ↔ rep.Has dst i ∨ i = here - n ∧ rep.Has src here := by
  simp [Rep.Has, (h.back dst src here n hd hs hn hlt).2 i]

structure Visited (rep : Rep σ) (g : Guts) (Valid : σ → Prop) (bef : σ → σ) (ch : Code) (pc : Nat)
    (aft aft' : σ) : Prop where
  valid : Valid aft'
  has : ∀ i, rep.Has aft' i ↔ rep.Has aft i ∨ (i ∈ moves g pc ∧ rep.Has aft pc) ∨
    ((g.op pc).passes g ch = true ∧ i = pc + 1 ∧ rep.Has (bef aft) pc)

theorem passes_eq_false {s : Sop} (hop : g.op pc = s) (h : s.passes g ch = false) :
    (g.op pc).passes g ch = false := by
  rw [hop, h]

theorem visited_next (h : rep.Lawful g.nstates Valid) (hv : Valid aft) (hlt : pc + 1 < g.nstates)
    (hm : moves g pc = [pc + 1]) (hp : (g.op pc).passes g ch = false) :
    Visited rep g Valid bef ch pc aft (rep.fwd aft aft pc 1) where
  valid := (h.fwd aft aft pc 1 hv hv hlt).1
  has i := by simp [has_fwd h hv hv hlt, hm, hp]

theorem visited_ahead (h : rep.Lawful g.nstates Valid) {n : Nat} (hv : Valid aft)
    (hlt : pc + 1 < g.nstates) (hn : pc + n < g.nstates) (hm : moves g pc = [pc + 1, pc + n])
    (hp : (g.op pc).passes g ch = false) :
    Visited rep g Valid bef ch pc aft
      (rep.fwd (rep.fwd aft aft pc 1) (rep.fwd aft aft pc 1) pc n) := by
  have hv1 := (h.fwd aft aft pc 1 hv hv hlt).1
  constructor
  · exact (h.fwd _ _ pc n hv1 hv1 hn).1
  · intro i
    rw [has_fwd h hv1 hv1 hn, has_fwd h hv hv hlt, has_fwd h hv hv hlt]
    simp only [hm, hp, List.mem_cons, List.not_mem_nil, or_false, Bool.false_eq_true, false_and]
    have : pc ≠ pc + 1 := by omega
    tauto

theorem visited_loop (h : rep.Lawful g.nstates Valid) {n : Nat} (hv : Valid aft)
    (hlt : pc + 1 < g.nstates) (hn : n ≤ pc) (hm : moves g pc = [pc + 1, pc - n])
    (hp : (g.op pc).passes g ch = false) :
    Visited rep g Valid bef ch pc aft
      (rep.back (rep.fwd aft aft pc 1) (rep.fwd aft aft pc 1) pc n) := by
  have hv1 := (h.fwd aft aft pc 1 hv hv hlt).1
  have hpc : pc < g.nstates := by omega
  constructor
  · exact (h.back _ _ pc n hv1 hv1 hn hpc).1
  · intro i
    rw [has_back h hv1 hv1 hn hpc, has_fwd h hv hv hlt, has_fwd h hv hv hlt]
    simp only [hm, hp, List.mem_cons, List.not_mem_nil, or_false, Bool.false_eq_true, false_and]
    have : pc ≠ pc + 1 := by omega
    tauto

theorem visited_pass (ch : Code) (h : rep.Lawful g.nstates Valid) (hv : Valid aft)
    (hb : Valid (bef aft)) (hlt : pc + 1 < g.nstates) (hm : moves g pc = []) :
    Visited rep g Valid bef ch pc aft
      (if (g.op pc).passes g ch then rep.fwd aft (bef aft) pc 1 else aft) := by
  by_cases hp : (g.op pc).passes g ch = true
  · rw [if_pos hp]
    exact ⟨(h.fwd aft (bef aft) pc 1 hv hb hlt).1, fun i => by simp [has_fwd h hv hb hlt, hm, hp]⟩
  · rw [if_neg hp]
    exact ⟨hv, fun i => by simp [hm, hp]⟩

theorem visited (ch : Code) (h : rep.Lawful g.nstates Valid) (hv : Valid aft) (hb : Valid (bef aft))
    (hlt : pc + 1 < g.nstates) (hmoves : ∀ t ∈ moves g pc, t < g.nstates)
    (hloop : ∀ n, g.op pc = .o_plus n → n ≤ pc) :
    Visited rep g Valid bef ch pc aft (visit rep g bef ch pc aft) := by
  have hpass := visited_pass ch h hv hb hlt
  cases hop : g.op pc with
  | oback_ | o_back | oplus_ | o_quest | olparen | orparen | o_ch =>
    simp only [visit, hop]
    exact visited_next h hv hlt (by simp [moves, hop]) (passes_eq_false hop rfl)
  | o_plus n =>
    simp only [visit, hop]
    exact visited_loop h hv hlt (hloop n hop) (by simp [moves, hop]) (passes_eq_false hop rfl)
  | oquest_ n | och_ n =>
    have hm : moves g pc = [pc + 1, pc + n] := by simp [moves, hop]
    simp only [visit, hop]
    exact visited_ahead h hv hlt (hmoves _ (by simp [hm])) hm (passes_eq_false hop rfl)
  | oor1 =>
    have hp : (g.op pc).passes g ch = false := passes_eq_false hop rfl
    cases hf : findCh g g.nstates (pc + 1) with
    | none =>
      have hm : moves g pc = [] := by simp [moves, hop, hf]
      simp only [visit, hop, hf]
      exact ⟨hv, fun i => by simp [hm, hp]⟩
    | some e =>
      have hm : moves g pc = [pc + (e - pc)] := by simp [moves, hop, hf]
      have hlt' := hmoves (pc + (e - pc)) (by simp [hm])
      simp only [visit, hop, hf]
      exact ⟨(h.fwd aft aft pc _ hv hv hlt').1, fun i => by
        simp [has_fwd h hv hv hlt', hm, hp]⟩
  | oor2 n =>
    by_cases hch : ∃ k, g.op (pc + n) = .o_ch k
    · obtain ⟨k, hch⟩ := hch
      simp only [visit, hop, hch]
      exact visited_next h hv hlt (by simp [moves, hop, hch]) (passes_eq_false hop rfl)
    · have hm : moves g pc = [pc + 1, pc + n] := by
        simp only [moves, hop]
        split
        · exact absurd ⟨_, ‹_›⟩ hch
        · rfl
      have hvisit : visit rep g bef ch pc aft =
          rep.fwd (rep.fwd aft aft pc 1) (rep.fwd aft aft pc 1) pc n := by
        simp only [visit, hop]
        split
        · exact absurd ⟨_, ‹_›⟩ hch
        · rfl
      rw [hvisit]
      exact visited_ahead h hv hlt (hmoves _ (by simp [hm])) hm (passes_eq_false hop rfl)
  | oend | ochar | obol | oeol | oany | oanyof | obow | oeow =>
    simp only [visit, hop]
    simpa only [hop] using hpass (by simp [moves, hop])

theorem again_eq_some (h : rep.Lawful g.nstates Valid) {aft' : σ} {n : Nat} (hv : Valid aft)
    (hv' : Valid aft') (hlt : pc + 1 < g.nstates) (hloop : ∀ n, g.op pc = .o_plus n → n ≤ pc) :
    again rep g pc aft aft' = some n ↔
      g.op pc = .o_plus n ∧ ¬ rep.Has aft (pc - n) ∧ rep.Has aft' (pc - n) := by
  cases hop : g.op pc with
  | o_plus k =>
    have hk := hloop k hop
    have hpc : pc < g.nstates := by omega
    have hback : rep.Has (rep.fwd aft aft pc 1) (pc - k) ↔ rep.Has aft (pc - k) := by
      rw [has_fwd h hv hv hlt]
      have : pc - k ≠ pc + 1 := by omega
      tauto
    simp only [again, hop, h.issetback _ pc k (h.fwd aft aft pc 1 hv hv hlt).1 hk hpc,
      h.issetback _ pc k hv' hk hpc, Sop.o_plus.injEq]
    simp only [Rep.Has] at hback ⊢
    constructor
    · intro hif
      split at hif
      · cases hif
        simp_all
      · cases hif
    · rintro ⟨rfl, hnot, hnow⟩
      simp_all
  | _ => simp [again, hop]

end visit

section sweep

variable {start stop : Nat} {bef : σ → σ} {ch : Code} {pc : Nat} {aft aft' : σ}

/-- The set has what the operator at `s` adds to it. -/
structure Settled (rep : Rep σ) (g : Guts) (bef : σ → σ) (ch : Code) (aft : σ) (s : Nat) :
    Prop where
  moves : rep.Has aft s → ∀ t ∈ moves g s, rep.Has aft t
  passes : (g.op s).passes g ch = true → rep.Has (bef aft) s → rep.Has aft (s + 1)

/-- The set before does not change, or is the set after: a state it gets is one `aft` gets. -/
structure Reads (rep : Rep σ) (Valid : σ → Prop) (bef : σ → σ) : Prop where
  valid : ∀ aft, Valid aft → Valid (bef aft)
  near : ∀ aft aft' s, (rep.Has aft' s → rep.Has aft s) →
    rep.Has (bef aft') s → rep.Has (bef aft) s

/-- What the loop of `step` leaves: the least set with `aft` in it that every operator has added
its states to. -/
structure Swept (rep : Rep σ) (g : Guts) (Valid : σ → Prop) (start stop : Nat) (bef : σ → σ)
    (ch : Code) (aft aft' : σ) : Prop where
  valid : Valid aft'
  keeps : ∀ i, rep.Has aft i → rep.Has aft' i
  settled : ∀ s, start ≤ s → s < stop → Settled rep g bef ch aft' s
  least : ∀ C : Nat → Prop, (∀ i, rep.Has aft i → C i) →
    (∀ s, start ≤ s → s < stop → C s → ∀ t ∈ moves g s, C t) →
    (∀ a, (∀ i, rep.Has a i → C i) → ∀ s, start ≤ s → s < stop →
      (g.op s).passes g ch = true → rep.Has (bef a) s → C (s + 1)) →
    ∀ i, rep.Has aft' i → C i

theorem Settled.mono (hr : Reads rep Valid bef) {s : Nat} (h : Settled rep g bef ch aft s)
    (hsub : ∀ i, rep.Has aft i → rep.Has aft' i) (hold : rep.Has aft' s → rep.Has aft s) :
    Settled rep g bef ch aft' s where
  moves hs t ht := hsub t (h.moves (hold hs) t ht)
  passes hp hb := hsub _ (h.passes hp (hr.near aft aft' s hold hb))

theorem eq_of_mem_moves_of_lt {t : Nat} (ht : t ∈ moves g pc) (hlt : t < pc) :
    ∃ n, g.op pc = .o_plus n ∧ t = pc - n := by
  unfold moves at ht
  cases hop : g.op pc with
  | o_plus n =>
    simp only [hop, List.mem_cons, List.not_mem_nil, or_false] at ht
    rcases ht with rfl | rfl
    · omega
    · exact ⟨n, rfl, rfl⟩
  | oor1 =>
    cases hf : findCh g g.nstates (pc + 1) with
    | none => simp [hop, hf] at ht
    | some e =>
      simp only [hop, hf, List.mem_singleton] at ht
      omega
  | oor2 n =>
    have : t = pc + 1 ∨ t = pc + n := by
      simp only [hop] at ht
      split at ht
      · exact .inl (List.mem_singleton.1 ht)
      · simpa using ht
    omega
  | oend | ochar | obol | oeol | oany | oanyof | obow | oeow => simp [hop] at ht
  | _ =>
    simp only [hop, List.mem_cons, List.not_mem_nil, or_false] at ht
    omega

/-- The states below `N` that are not in the set. -/
def Rep.missing (rep : Rep σ) (N : Nat) (v : σ) : Finset Nat :=
  (Finset.range N).filter fun i => rep.isset v i = false

theorem missing_card_le (hsub : ∀ i, rep.Has aft i → rep.Has aft' i) (N : Nat) :
    (rep.missing N aft').card ≤ (rep.missing N aft).card := by
  apply Finset.card_le_card
  intro i hi
  simp only [Rep.missing, Finset.mem_filter] at hi ⊢
  refine ⟨hi.1, ?_⟩
  by_contra hne
  simp_all [Rep.Has]

theorem missing_card_lt (hsub : ∀ i, rep.Has aft i → rep.Has aft' i) {N i : Nat} (hi : i < N)
    (hnot : ¬ rep.Has aft i) (hnow : rep.Has aft' i) :
    (rep.missing N aft').card < (rep.missing N aft).card := by
  apply Finset.card_lt_card
  refine ⟨fun j hj => ?_, fun hle => ?_⟩
  · simp only [Rep.missing, Finset.mem_filter] at hj ⊢
    refine ⟨hj.1, ?_⟩
    by_contra hne
    simp_all [Rep.Has]
  · have hmem : i ∈ rep.missing N aft := by
      simp only [Rep.missing, Finset.mem_filter, Finset.mem_range]
      exact ⟨hi, by simpa [Rep.Has] using hnot⟩
    have := hle hmem
    simp_all [Rep.missing, Rep.Has]

theorem Swept.cons {mid : σ} (hp : start ≤ pc) (hlt : pc < stop)
    (hvis : Visited rep g Valid bef ch pc aft mid)
    (h : Swept rep g Valid start stop bef ch mid aft') :
    Swept rep g Valid start stop bef ch aft aft' where
  valid := h.valid
  keeps i hi := h.keeps i ((hvis.has i).2 (.inl hi))
  settled := h.settled
  least C hC hmoves hpass := by
    refine h.least C (fun i hi => ?_) hmoves hpass
    rcases (hvis.has i).1 hi with hi | ⟨ht, hs⟩ | ⟨hps, rfl, hb⟩
    · exact hC i hi
    · exact hmoves pc hp hlt (hC pc hs) i ht
    · exact hpass aft hC pc hp hlt hps hb

theorem stepLoop_swept (h : rep.Lawful g.nstates Valid) (hpart : Part g start stop)
    (hr : Reads rep Valid bef) (fuel pc : Nat) (aft : σ) (hv : Valid aft) (hle : start ≤ pc)
    (hge : pc ≤ stop) (hset : ∀ s, start ≤ s → s < pc → Settled rep g bef ch aft s)
    (hfuel : (rep.missing g.nstates aft).card * (g.nstates + 1) + (stop - pc) < fuel) :
    Swept rep g Valid start stop bef ch aft (stepLoop rep g stop bef ch fuel pc aft) := by
  induction fuel generalizing pc aft with
  | zero => omega
  | succ fuel ih =>
    unfold stepLoop
    by_cases hstop : pc = stop
    · rw [if_pos hstop]
      exact ⟨hv, fun _ hi => hi, fun s hs hlt => hset s hs (by omega), fun C hC _ _ => hC⟩
    rw [if_neg hstop]
    have hlt : pc < stop := by omega
    have hN := hpart.lt
    have hmoves : ∀ t ∈ moves g pc, t < g.nstates := fun t ht => by
      have := (hpart.within pc hle hlt t ht).2
      omega
    have hloop : ∀ n, g.op pc = .o_plus n → n ≤ pc := fun n hn => by
      have := hpart.loop pc hle hlt n hn
      omega
    have hvis := visited ch h hv (hr.valid aft hv) (by omega) hmoves hloop
    have hsub : ∀ i, rep.Has aft i → rep.Has (visit rep g bef ch pc aft) i := fun i hi =>
      (hvis.has i).2 (.inl hi)
    generalize visit rep g bef ch pc aft = mid at hvis hsub ⊢
    cases hagain : again rep g pc aft mid with
    | some n =>
      -- the start of a loop is new, so that one state less is missing
      obtain ⟨hop, hnot, hnow⟩ := (again_eq_some h hv hvis.valid (by omega) hloop).1 hagain
      have hn := hpart.loop pc hle hlt n hop
      simp only [hagain]
      refine (ih (pc - n) mid hvis.valid (by omega) (by omega) (fun s hs hlt' => ?_) ?_).cons
        hle hlt hvis
      · apply (hset s hs (by omega)).mono hr hsub
        intro hs'
        rcases (hvis.has s).1 hs' with hs' | ⟨ht, -⟩ | ⟨-, rfl, -⟩
        · exact hs'
        · obtain ⟨k, hk, rfl⟩ := eq_of_mem_moves_of_lt ht (by omega)
          cases hop.symm.trans hk
          omega
        · omega
      · have hcard := missing_card_lt hsub (show pc - n < g.nstates by omega) hnot hnow
        have : (rep.missing g.nstates mid).card * (g.nstates + 1) + (g.nstates + 1) ≤
            (rep.missing g.nstates aft).card * (g.nstates + 1) := by
          rw [← Nat.succ_mul]
          exact Nat.mul_le_mul_right _ hcard
        omega
    | none =>
      simp only [hagain]
      refine (ih (pc + 1) mid hvis.valid (by omega) (by omega) (fun s hs hlt' => ?_) ?_).cons
        hle hlt hvis
      · -- what is new lies ahead
        have hold : rep.Has mid s → rep.Has aft s := by
          intro hs'
          rcases (hvis.has s).1 hs' with hs' | ⟨ht, hpc⟩ | ⟨-, rfl, -⟩
          · exact hs'
          · by_cases hspc : s = pc
            · rwa [hspc]
            · obtain ⟨k, hk, rfl⟩ := eq_of_mem_moves_of_lt ht (by omega)
              by_contra hnot
              have := (again_eq_some h hv hvis.valid (by omega) hloop).2 ⟨hk, hnot, hs'⟩
              rw [hagain] at this
              cases this
          · omega
        by_cases hspc : s = pc
        · subst hspc
          exact ⟨fun hs' t ht => (hvis.has t).2 (.inr (.inl ⟨ht, hold hs'⟩)),
            fun hps hb => (hvis.has _).2 (.inr (.inr ⟨hps, rfl, hr.near aft mid s hold hb⟩))⟩
        · exact (hset s hs (by omega)).mono hr hsub hold
      · have := Nat.mul_le_mul_right (g.nstates + 1) (missing_card_le hsub g.nstates)
        omega

theorem stepLoop_turns (ch : Code) (h : rep.Lawful g.nstates Valid) (hpart : Part g start stop)
    (hr : Reads rep Valid bef) (hv : Valid aft) :
    Swept rep g Valid start stop bef ch aft (stepLoop rep g stop bef ch g.turns start aft) := by
  apply stepLoop_swept h hpart hr _ start aft hv le_rfl hpart.le (fun s hs hlt => by omega)
  have hcard : (rep.missing g.nstates aft).card ≤ g.nstates := by
    have := Finset.card_filter_le (Finset.range g.nstates) fun i => rep.isset aft i = false
    simpa [Rep.missing] using this
  have := Nat.mul_le_mul_right (g.nstates + 1) hcard
  have := hpart.lt
  have : g.turns = g.nstates * (g.nstates + 1) + (g.nstates + 1) := by
    unfold Guts.turns
    ring
  omega

end sweep

end Bsdi.Regex
