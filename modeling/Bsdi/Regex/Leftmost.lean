import Bsdi.Regex.Language

/-!
# Leftmost and longest

`slow` follows the journeys from one place of the string, `fast` those from all places at once.
`fast` takes the last place where its set was the set it starts with for one that no match is
under way across; this is so where no character leads to a state of that set.
-/

namespace Bsdi.Regex

variable {m : Env} {start stop : Nat}

/-! ### Places of a journey -/

/-- The states reached at `p` from the first state at `x`. -/
def Full (m : Env) (start stop x p s : Nat) : Prop := Journey m start stop (start, x) (s, p)

/-- What is reached at one place: over empty moves and the anchors that hold there. -/
abbrev Stand (m : Env) (start stop p : Nat) : Nat → Nat → Prop :=
  Relation.ReflTransGen fun s t => Hop m start stop (s, p) (t, p)

/-- The states at `p` before the anchors there are looked at. -/
def Arrived (m : Env) (start stop x p i : Nat) : Prop :=
  ∃ j, (x = p ∧ j = start ∨ ∃ s k, p = k + 1 ∧ x ≤ k ∧ k < m.endp ∧
    Pass m.g start stop (.char (m.text k)) s j ∧ Full m start stop x k s) ∧
    Moves m.g start stop j i

theorem Moves.journey {s t : Nat} (h : Moves m.g start stop s t) (p : Nat) :
    Journey m start stop (s, p) (t, p) :=
  h.lift (fun s => (s, p)) fun _ _ hm => ⟨hm.1, hm.2.1, .inl ⟨hm.2.2, rfl⟩⟩

theorem Stand.journey {p s t : Nat} (h : Stand m start stop p s t) :
    Journey m start stop (s, p) (t, p) :=
  h.lift (fun s => (s, p)) fun _ _ hop => hop

theorem Hop.place {x y : Nat × Nat} (h : Hop m start stop x y) :
    y.2 = x.2 ∨ y.2 = x.2 + 1 ∧ x.2 < m.endp ∧
      Pass m.g start stop (.char (m.text x.2)) x.1 y.1 := by
  obtain ⟨hle, hlt, ⟨-, hp⟩ | ⟨⟨hend, hp, hq⟩ | ⟨-, -, hp⟩ | ⟨-, -, hp⟩, hs⟩⟩ := h
  · exact .inl hp
  · exact .inr ⟨hq, hend, hle, hlt, hp, hs⟩
  · exact .inl hp
  · exact .inl hp

theorem Full.le {x p s : Nat} (h : Full m start stop x p s) : x ≤ p := by
  have : ∀ y, Journey m start stop (start, x) y → x ≤ y.2 := by
    intro y hy
    induction hy with
    | refl => exact le_rfl
    | tail _ hop ih => rcases hop.place with hp | ⟨hp, -⟩ <;> omega
  exact this _ h

theorem Full.at {x p q s : Nat} (h : Full m start stop x q s) (hx : x ≤ p) (hq : p ≤ q) :
    ∃ t, Full m start stop x p t := by
  have : ∀ y, Journey m start stop (start, x) y → p ≤ y.2 → ∃ t, Full m start stop x p t := by
    intro y hy
    induction hy with
    | refl =>
      intro hp
      obtain rfl : x = p := le_antisymm hx hp
      exact ⟨start, .refl⟩
    | @tail y z hyz hop ih =>
      intro hp
      by_cases hpy : p ≤ y.2
      · exact ih hpy
      · have hz : z.2 = p := by rcases hop.place with hp' | ⟨hp', -⟩ <;> omega
        refine ⟨z.1, ?_⟩
        rw [← hz]
        exact hyz.tail hop
  exact this _ h hq

theorem full_iff {x p i : Nat} :
    Full m start stop x p i ↔ ∃ j, Arrived m start stop x p j ∧ Stand m start stop p j i := by
  constructor
  · have : ∀ y, Journey m start stop (start, x) y →
        ∃ j, Arrived m start stop x y.2 j ∧ Stand m start stop y.2 j y.1 := by
      intro y hy
      induction hy with
      | refl => exact ⟨start, ⟨start, .inl ⟨rfl, rfl⟩, .refl⟩, .refl⟩
      | @tail y z hyz hop ih =>
        obtain ⟨j, hj, hstand⟩ := ih
        rcases hop.place with hp | ⟨hp, hend, hpass⟩
        · rw [hp]
          refine ⟨j, hj, hstand.tail ?_⟩
          have hz : (z.1, y.2) = z := Prod.ext rfl hp.symm
          rw [hz]
          exact hop
        · rw [hp]
          refine ⟨z.1, ⟨z.1, .inr ⟨y.1, y.2, rfl, Full.le hyz, hend, hpass, hyz⟩, .refl⟩, .refl⟩
    exact this (i, p)
  · rintro ⟨j, ⟨j', hj', hmoves⟩, hstand⟩
    have hj : Full m start stop x p j' := by
      rcases hj' with ⟨rfl, rfl⟩ | ⟨s, k, rfl, -, hend, ⟨hle, hlt, hp, rfl⟩, hfull⟩
      · exact .refl
      · exact hfull.tail ⟨hle, hlt, .inr ⟨.inl ⟨hend, hp, rfl⟩, rfl⟩⟩
    exact (hj.trans (hmoves.journey p)).trans hstand.journey

/-! ### Between two characters -/

theorem passes_bol_iff {g : Guts} (s : Sop) : s.passes g .bol = true ↔ s = .obol := by
  cases s <;>
    first
    | exact ⟨fun _ => rfl, fun _ => rfl⟩
    | exact ⟨fun h => absurd h Bool.false_ne_true, fun h => by cases h⟩

theorem passes_eol_iff {g : Guts} (s : Sop) : s.passes g .eol = true ↔ s = .oeol := by
  cases s <;>
    first
    | exact ⟨fun _ => rfl, fun _ => rfl⟩
    | exact ⟨fun h => absurd h Bool.false_ne_true, fun h => by cases h⟩

theorem passes_boleol_iff {g : Guts} (s : Sop) :
    s.passes g .boleol = true ↔ s = .obol ∨ s = .oeol := by
  cases s <;>
    first
    | exact ⟨fun _ => .inl rfl, fun _ => rfl⟩
    | exact ⟨fun _ => .inr rfl, fun _ => rfl⟩
    | exact ⟨fun h => absurd h Bool.false_ne_true, fun h => by rcases h with h | h <;> cases h⟩

theorem hop_place_iff {p s t : Nat} : Hop m start stop (s, p) (t, p) ↔
    Move m.g start stop s t ∨ start ≤ s ∧ s < stop ∧ t = s + 1 ∧
      (m.g.op s = .obol ∧ m.startsLine (m.before p) = true ∨
        m.g.op s = .oeol ∧ m.endsLine (m.char p) = true) := by
  unfold Hop Takes Move
  constructor
  · rintro ⟨hle, hlt, ⟨ht, -⟩ | ⟨⟨-, -, hp⟩ | ⟨hop, hb, -⟩ | ⟨hop, he, -⟩, ht⟩⟩
    · exact .inl ⟨hle, hlt, ht⟩
    · simp at hp
    · exact .inr ⟨hle, hlt, ht, .inl ⟨hop, hb⟩⟩
    · exact .inr ⟨hle, hlt, ht, .inr ⟨hop, he⟩⟩
  · rintro (⟨hle, hlt, ht⟩ | ⟨hle, hlt, ht, ⟨hop, hb⟩ | ⟨hop, he⟩⟩)
    · exact ⟨hle, hlt, .inl ⟨ht, rfl⟩⟩
    · exact ⟨hle, hlt, .inr ⟨.inr (.inl ⟨hop, hb, rfl⟩), ht⟩⟩
    · exact ⟨hle, hlt, .inr ⟨.inr (.inr ⟨hop, he, rfl⟩), ht⟩⟩

theorem stand_iff {p : Nat} {code : Code} {k : Nat}
    (h : m.lineFlag (m.before p) (m.char p) = (some code, k)) (s t : Nat) :
    Stand m start stop p s t ↔ Reach m.g start stop code s t := by
  have hstep : ∀ s t, Hop m start stop (s, p) (t, p) ↔
      Move m.g start stop s t ∨ Pass m.g start stop code s t := by
    intro s t
    rw [hop_place_iff]
    unfold Env.lineFlag at h
    rcases hb : m.startsLine (m.before p) with _ | _ <;>
      rcases he : m.endsLine (m.char p) with _ | _ <;> simp only [hb, he] at h <;> cases h
    · simp only [Pass, passes_eol_iff]
      tauto
    · simp only [Pass, passes_bol_iff]
      tauto
    · simp only [Pass, passes_boleol_iff]
      tauto
  simp only [Reach, Stand, hstep]

theorem stand_iff_moves {p k : Nat} (h : m.lineFlag (m.before p) (m.char p) = (none, k))
    (s t : Nat) : Stand m start stop p s t ↔ Moves m.g start stop s t := by
  have hstep : ∀ s t, Hop m start stop (s, p) (t, p) ↔ Move m.g start stop s t := by
    intro s t
    rw [hop_place_iff]
    unfold Env.lineFlag at h
    rcases hb : m.startsLine (m.before p) with _ | _ <;>
      rcases he : m.endsLine (m.char p) with _ | _ <;> simp only [hb, he] at h <;> cases h
    simp
  simp only [Moves, Stand, hstep]

section loops

variable {σ : Type} {rep : Rep σ} {Valid : σ → Prop}

/-- The anchors of a part are stepped for, and it has no word boundaries. -/
structure Steps (rep : Rep σ) (g : Guts) (start stop : Nat) : Prop where
  bol : Enough rep g start stop .bol g.nbol
  eol : Enough rep g start stop .eol g.neol
  boleol : Enough rep g start stop .boleol (g.nbol + g.neol)
  bow : ∀ s r, ¬ Pass g start stop .bow s r
  eow : ∀ s r, ¬ Pass g start stop .eow s r

theorem has_stepSame {g : Guts} {ch : Code} (l : rep.Lawful g.nstates Valid)
    (hpart : Part g start stop) {v : σ} (hv : Valid v) (hclosed : Closed rep g start stop v)
    (hnone : ∀ s r, ¬ Pass g start stop ch s r) (i : Nat) :
    rep.Has (stepSame rep g start stop ch v) i ↔ rep.Has v i := by
  refine (has_iterate l hpart hv hclosed (.inl (few_none hnone 1)) i).trans ⟨?_, ?_⟩
  · rintro ⟨p, hp, hreach⟩
    induction hreach with
    | refl => exact hp
    | tail _ hstep ih =>
      rcases hstep with hm | hps
      · exact hclosed _ _ hm ih
      · exact absurd hps (hnone _ _)
  · exact fun hi => ⟨i, hi, .refl⟩

variable (l : rep.Lawful m.g.nstates Valid) (hpart : Part m.g start stop)
  (hsteps : Steps rep m.g start stop)

include l hpart hsteps in
theorem has_lineSteps {v : σ} (hv : Valid v) (hclosed : Closed rep m.g start stop v) (p : Nat) :
    Valid (lineSteps rep m.g start stop (m.lineFlag (m.before p) (m.char p)) v) ∧
      Closed rep m.g start stop (lineSteps rep m.g start stop (m.lineFlag (m.before p) (m.char p)) v) ∧
      ∀ i, rep.Has (lineSteps rep m.g start stop (m.lineFlag (m.before p) (m.char p)) v) i ↔
        ∃ j, rep.Has v j ∧ Stand m start stop p j i := by
  rcases hl : m.lineFlag (m.before p) (m.char p) with ⟨_ | code, k⟩
  · refine ⟨hv, hclosed, fun i => ?_⟩
    simp only [stand_iff_moves hl, lineSteps]
    constructor
    · exact fun hi => ⟨i, hi, .refl⟩
    · rintro ⟨j, hj, hmoves⟩
      induction hmoves with
      | refl => exact hj
      | tail _ hm ih => exact hclosed _ _ hm ih
  · have henough : Enough rep m.g start stop code k := by
      unfold Env.lineFlag at hl
      rcases hb : m.startsLine (m.before p) with _ | _ <;>
        rcases he : m.endsLine (m.char p) with _ | _ <;> simp only [hb, he] at hl <;> cases hl
      · exact hsteps.eol
      · exact hsteps.bol
      · exact hsteps.boleol
    have h := iterate_stepped code l hpart hv hclosed k
    refine ⟨h.1, h.2.1, fun i => ?_⟩
    simp only [stand_iff hl]
    exact has_iterate l hpart hv hclosed henough i

include l hpart hsteps in
theorem has_wordStep {v : σ} (hv : Valid v) (hclosed : Closed rep m.g start stop v)
    (flagch : Option Code) :
    Valid (wordStep rep m.g start stop flagch v) ∧
      ∀ i, rep.Has (wordStep rep m.g start stop flagch v) i ↔ rep.Has v i := by
  rcases flagch with _ | code
  · exact ⟨hv, fun _ => Iff.rfl⟩
  cases code with
  | bow => exact ⟨(stepSame_stepped .bow l hpart hv).valid, has_stepSame l hpart hv hclosed hsteps.bow⟩
  | eow => exact ⟨(stepSame_stepped .eow l hpart hv).valid, has_stepSame l hpart hv hclosed hsteps.eow⟩
  | _ => exact ⟨hv, fun _ => Iff.rfl⟩

include l hpart hsteps in
theorem has_between {v : σ} (hv : Valid v) (hclosed : Closed rep m.g start stop v) (p : Nat) :
    Valid (between rep m start stop (m.before p) (m.char p) v) ∧
      ∀ i, rep.Has (between rep m start stop (m.before p) (m.char p) v) i ↔
        ∃ j, rep.Has v j ∧ Stand m start stop p j i := by
  have hline := has_lineSteps l hpart hsteps hv hclosed p
  have hword := has_wordStep l hpart hsteps hline.1 hline.2.1
    (wordFlag (m.lineFlag (m.before p) (m.char p)).1 (m.before p) (m.char p))
  exact ⟨hword.1, fun i => (hword.2 i).trans (hline.2.2 i)⟩

theorem closed_of_arrived {v : σ} {P : Nat → Prop}
    (h : ∀ i, rep.Has v i ↔ ∃ j, P j ∧ Moves m.g start stop j i) : Closed rep m.g start stop v := by
  intro p q hm hp
  obtain ⟨j, hj, hmoves⟩ := (h p).1 hp
  exact (h q).2 ⟨j, hj, hmoves.tail hm⟩

theorem Env.char_eq_before {p : Nat} (hb : m.beginp ≤ p) (he : p < m.endp) :
    m.char p = m.before (p + 1) := by
  have h₁ : p ≠ m.endp := by omega
  have h₂ : p + 1 ≠ m.beginp := by omega
  simp [Env.char, Env.before, h₁, h₂]

/-! ### `slow` -/

/-- The end of the longest match from `x` that ends at `last` or before. -/
structure Best (m : Env) (start stop x last : Nat) (r : Option Nat) : Prop where
  sound : ∀ q, r = some q → q ≤ last ∧ Full m start stop x q stop
  longest : ∀ q, q ≤ last → Full m start stop x q stop → ∃ q', r = some q' ∧ q ≤ q'

include l hpart hsteps in
theorem slowLoop_best {x last : Nat} (hend : last ≤ m.endp) (fuel p : Nat) (v : σ)
    (matchp : Option Nat) (hfuel : last < p + fuel) (hp : p ≤ last) (hbeg : m.beginp ≤ p)
    (hx : x ≤ p) (hv : Valid v) (hhas : ∀ i, rep.Has v i ↔ Arrived m start stop x p i)
    (hsound : ∀ q, matchp = some q → q < p ∧ Full m start stop x q stop)
    (hlongest : ∀ q, q < p → Full m start stop x q stop → ∃ q', matchp = some q' ∧ q ≤ q') :
    Best m start stop x last (slowLoop rep m last start stop fuel p (m.before p) v matchp) := by
  induction fuel generalizing p v matchp with
  | zero => omega
  | succ fuel ih =>
    have hb := has_between l hpart hsteps hv (closed_of_arrived hhas) p
    unfold slowLoop
    simp only
    generalize between rep m start stop (m.before p) (m.char p) v = w at hb ⊢
    have hfull : ∀ i, rep.Has w i ↔ Full m start stop x p i := fun i => by
      rw [hb.2 i, full_iff]
      simp only [hhas]
    -- the best match up to `p`
    generalize hm : (if rep.isset w stop = true then some p else matchp) = matchp'
    have hsound' : ∀ q, matchp' = some q → q ≤ p ∧ Full m start stop x q stop := by
      intro q hq
      by_cases hset : rep.isset w stop = true
      · rw [← hm, if_pos hset] at hq
        cases hq
        exact ⟨le_rfl, (hfull stop).1 hset⟩
      · rw [← hm, if_neg hset] at hq
        exact ⟨(hsound q hq).1.le, (hsound q hq).2⟩
    have hlongest' : ∀ q, q ≤ p → Full m start stop x q stop → ∃ q', matchp' = some q' ∧ q ≤ q' := by
      intro q hq hfq
      by_cases hset : rep.isset w stop = true
      · exact ⟨p, by rw [← hm, if_pos hset], hq⟩
      · rw [← hm, if_neg hset]
        rcases hq.lt_or_eq with hq | rfl
        · exact hlongest q hq hfq
        · exact absurd ((hfull stop).2 hfq) hset
    by_cases hdone : (rep.eq w rep.clear || decide (p = last)) = true
    · rw [if_pos hdone]
      refine ⟨fun q hq => ⟨(hsound' q hq).1.trans hp, (hsound' q hq).2⟩, fun q hq hfq => ?_⟩
      by_cases hqp : q ≤ p
      · exact hlongest' q hqp hfq
      · -- an empty set is never left
        have hempty : rep.eq w rep.clear = true := by
          have : p ≠ last := by omega
          simpa [this] using hdone
        obtain ⟨t, ht⟩ := hfq.at hx (by omega)
        have := (l.eq w rep.clear hb.1 l.clear.1).1 hempty t
        rw [l.clear.2 t, (hfull t).2 ht] at this
        cases this
    · rw [if_neg hdone]
      have hlt : p < last := by
        have : p ≠ last := fun h => hdone (by simp [h])
        omega
      have hstep := has_step (.char (m.text p)) l hpart hb.1 l.clear.1
      rw [Env.char_eq_before hbeg (by omega)]
      refine ih (p + 1) _ _ (by omega) hlt (by omega) (by omega) hstep.1 (fun i => ?_)
        (fun q hq => ⟨by have := (hsound' q hq).1; omega, (hsound' q hq).2⟩)
        (fun q hq => hlongest' q (by omega))
      rw [hstep.2 i]
      refine exists_congr fun j => and_congr_left fun _ => ?_
      constructor
      · rintro (hj | ⟨s, hs, hw⟩)
        · simp [Rep.Has, l.clear.2] at hj
        · exact .inr ⟨s, p, rfl, hx, by omega, hs, (hfull s).1 hw⟩
      · rintro (⟨hxp, -⟩ | ⟨s, k, hk, -, -, hs, hf⟩)
        · omega
        · obtain rfl : p = k := by omega
          exact .inr ⟨s, hs, (hfull s).2 hf⟩

include l hpart hsteps in
theorem slow_best {x last : Nat} (hx : m.beginp ≤ x) (hle : x ≤ last) (hend : last ≤ m.endp) :
    Best m start stop x last (slow rep m x last start stop) := by
  have hi := has_initial l hpart
  refine slowLoop_best l hpart hsteps hend _ x _ none (by omega) hle hx le_rfl hi.1 (fun i => ?_)
    (fun q hq => by cases hq) (fun q hq hf => absurd hf.le (by omega))
  rw [hi.2 i]
  constructor
  · exact fun hm => ⟨start, .inl ⟨rfl, rfl⟩, hm⟩
  · rintro ⟨j, ⟨-, rfl⟩ | ⟨s, k, hk, hxk, -⟩, hm⟩
    · exact hm
    · omega

/-! ### `fast` -/

def Cold (g : Guts) (start stop : Nat) : Prop :=
  ∀ s c j, Pass g start stop (.char c) s j → ¬ Moves g start stop start j

/-- Where the first match from `first` on ends, or that there is none. `coldp` lies before every
match. -/
structure Bound (m : Env) (start stop first last : Nat) (r : Nat × Option Nat) : Prop where
  miss : r.2 = none → ∀ x q, first ≤ x → q ≤ last → ¬ Full m start stop x q stop
  ge : first ≤ r.1
  hit : r.2 ≠ none → ∃ x q, r.1 ≤ x ∧ q ≤ last ∧ Full m start stop x q stop
  cold : r.2 ≠ none → ∀ x q, first ≤ x → x < r.1 → q ≤ last → ¬ Full m start stop x q stop

/-- No match that started before `p` is under way at `p`. -/
def Quiet (m : Env) (start stop first p : Nat) : Prop :=
  ∀ x s, first ≤ x → x < p → ¬ Full m start stop x p s

theorem quiet_of_eq {v fresh : σ} {first p : Nat} (hcold : Cold m.g start stop)
    (hfresh : ∀ i, rep.Has fresh i ↔ Moves m.g start stop start i)
    (hhas : ∀ i, rep.Has v i ↔ ∃ x, first ≤ x ∧ Arrived m start stop x p i)
    (heq : ∀ i, rep.isset v i = rep.isset fresh i) : Quiet m start stop first p := by
  intro x s hx hlt hfull
  obtain ⟨i, ⟨j, hj, -⟩, -⟩ := full_iff.1 hfull
  rcases hj with ⟨hxp, -⟩ | ⟨s', k, hk, hxk, hend, hpass, hf⟩
  · omega
  · have hv : rep.Has v j := (hhas j).2 ⟨x, hx, j, .inr ⟨s', k, hk, hxk, hend, hpass, hf⟩, .refl⟩
    exact hcold s' (m.text k) j hpass ((hfresh j).1 ((heq j).symm.trans hv))

include l hpart hsteps in
theorem fastLoop_bound {first last : Nat} {fresh : σ} (hend : last ≤ m.endp) (hfv : Valid fresh)
    (hfresh : ∀ i, rep.Has fresh i ↔ Moves m.g start stop start i) (fuel p : Nat) (v : σ)
    (coldp : Nat) (hfuel : last < p + fuel) (hp : p ≤ last) (hbeg : m.beginp ≤ p)
    (hfirst : first ≤ p) (hv : Valid v)
    (hhas : ∀ i, rep.Has v i ↔ ∃ x, first ≤ x ∧ Arrived m start stop x p i)
    (hmiss : ∀ x q, first ≤ x → q < p → ¬ Full m start stop x q stop)
    (hge : first ≤ coldp) (hle : coldp ≤ p)
    (hquiet : Cold m.g start stop → Quiet m start stop first coldp) :
    let r := fastLoop rep m last start stop fresh fuel p (m.before p) v coldp
    (r.2 = none ↔ ∀ x q, first ≤ x → q ≤ last → ¬ Full m start stop x q stop) ∧
      (Cold m.g start stop → Bound m start stop first last r) := by
  induction fuel generalizing p v coldp with
  | zero => omega
  | succ fuel ih =>
    have hclosed : Closed rep m.g start stop v := by
      intro a b hm ha
      obtain ⟨x, hx, j, hj, hmoves⟩ := (hhas a).1 ha
      exact (hhas b).2 ⟨x, hx, j, hj, hmoves.tail hm⟩
    have hb := has_between l hpart hsteps hv hclosed p
    unfold fastLoop
    simp only
    generalize between rep m start stop (m.before p) (m.char p) v = w at hb ⊢
    have hfull : ∀ i, rep.Has w i ↔ ∃ x, first ≤ x ∧ Full m start stop x p i := fun i => by
      rw [hb.2 i]
      simp only [hhas, full_iff]
      constructor
      · rintro ⟨j, ⟨x, hx, hj⟩, hs⟩
        exact ⟨x, hx, j, hj, hs⟩
      · rintro ⟨x, hx, j, hj, hs⟩
        exact ⟨j, ⟨x, hx, hj⟩, hs⟩
    -- the last place that no match is under way across
    generalize hc : (if rep.eq v fresh = true then p else coldp) = coldp'
    obtain ⟨hge', hle', hquiet'⟩ :
        first ≤ coldp' ∧ coldp' ≤ p ∧ (Cold m.g start stop → Quiet m start stop first coldp') := by
      by_cases heq : rep.eq v fresh = true
      · rw [← hc, if_pos heq]
        exact ⟨hfirst, le_rfl, fun hcold =>
          quiet_of_eq hcold hfresh hhas ((l.eq v fresh hv hfv).1 heq)⟩
      · rw [← hc, if_neg heq]
        exact ⟨hge, hle, hquiet⟩
    by_cases hset : rep.isset w stop = true
    · rw [if_pos hset]
      obtain ⟨x, hx, hf⟩ := (hfull stop).1 hset
      refine ⟨iff_of_false (fun h => (by cases h)) fun h => h x p hx hp hf, fun hcold => ?_⟩
      have hcold' : ∀ x q, first ≤ x → x < coldp' → q ≤ last → ¬ Full m start stop x q stop := by
        intro x q hx hlt _ hf
        by_cases hq : q < p
        · exact hmiss x q hx hq hf
        · obtain ⟨t, ht⟩ := hf.at hlt.le (by omega)
          exact hquiet' hcold x t hx hlt ht
      refine ⟨fun h => (by cases h), hge', fun _ => ?_, fun _ => hcold'⟩
      refine ⟨x, p, ?_, hp, hf⟩
      by_contra hlt
      exact hcold' x p hx (by simpa using hlt) hp hf
    rw [if_neg hset]
    have hmiss' : ∀ x q, first ≤ x → q ≤ p → ¬ Full m start stop x q stop := by
      intro x q hx hq hf
      rcases hq.lt_or_eq with hq | rfl
      · exact hmiss x q hx hq hf
      · exact hset ((hfull stop).2 ⟨x, hx, hf⟩)
    by_cases hlast : p = last
    · rw [if_pos hlast]
      subst hlast
      exact ⟨iff_of_true rfl hmiss', fun _ =>
        ⟨fun _ => hmiss', hge', fun h => absurd rfl h, fun h => absurd rfl h⟩⟩
    · rw [if_neg hlast]
      have hstep := has_step (.char (m.text p)) l hpart hb.1 hfv
      rw [Env.char_eq_before hbeg (by omega)]
      refine ih (p + 1) _ coldp' (by omega) (by omega) (by omega) (by omega) hstep.1 (fun i => ?_)
        (fun x q hx hq => hmiss' x q hx (by omega)) hge' (by omega) hquiet'
      rw [hstep.2 i]
      constructor
      · rintro ⟨j, hj | ⟨s, hs, hw⟩, hmoves⟩
        · exact ⟨p + 1, by omega, start, .inl ⟨rfl, rfl⟩, ((hfresh j).1 hj).trans hmoves⟩
        · obtain ⟨x, hx, hf⟩ := (hfull s).1 hw
          exact ⟨x, hx, j, .inr ⟨s, p, rfl, hf.le, by omega, hs, hf⟩, hmoves⟩
      · rintro ⟨x, hx, j, ⟨-, rfl⟩ | ⟨s, k, hk, -, -, hs, hf⟩, hmoves⟩
        · exact ⟨j, .inl ((hfresh j).2 .refl), hmoves⟩
        · obtain rfl : p = k := by omega
          exact ⟨j, .inr ⟨s, hs, (hfull s).2 ⟨x, hx, hf⟩⟩, hmoves⟩

include l hpart hsteps in
theorem fast_bound {first last : Nat} (hx : m.beginp ≤ first) (hle : first ≤ last)
    (hend : last ≤ m.endp) :
    ((fast rep m first last start stop).2 = none ↔
        ∀ x q, first ≤ x → q ≤ last → ¬ Full m start stop x q stop) ∧
      (Cold m.g start stop → Bound m start stop first last (fast rep m first last start stop)) := by
  have hi := has_initial l hpart
  refine fastLoop_bound l hpart hsteps hend hi.1 hi.2 _ first _ first (by omega) hle hx le_rfl hi.1
    (fun i => ?_) (fun x q hx hq hf => absurd hf.le (by omega)) le_rfl le_rfl
    (fun _ x s hx hlt => by omega)
  rw [hi.2 i]
  constructor
  · exact fun hm => ⟨first, le_rfl, start, .inl ⟨rfl, rfl⟩, hm⟩
  · rintro ⟨x, hx, j, ⟨-, rfl⟩ | ⟨s, k, hk, hxk, -⟩, hm⟩
    · exact hm
    · omega

end loops

/-! ### `regexec` -/

/-- An expression that is compiled into a strip, without back references and word boundaries. -/
structure Expression (g : Guts) (r : Re) : Prop where
  emit : Emit g .items r (g.firststate + 1) g.laststate
  lt : g.laststate < g.nstates
  backrefs : g.backrefs = false
  nbol : ∀ s < g.nstates, g.op s = .obol → 0 < g.nbol
  neol : ∀ s < g.nstates, g.op s = .oeol → 0 < g.neol

theorem passes_of_leads {g : Guts} {s : Sop} (h : s.leads = true) (ch : Code) :
    s.passes g ch = false := by
  cases s <;>
    first
    | exact absurd h Bool.false_ne_true
    | rfl

theorem Emit.passes_word {g : Guts} {kind : Kind} {r : Re} {a b : Nat} (h : Emit g kind r a b)
    {ch : Code} (hch : ch = .bow ∨ ch = .eow) (s : Nat) (hle : a ≤ s) (hlt : s < b) :
    (g.op s).passes g ch = false := by
  -- the operators around what is inside only lead on
  have hleads : ∀ {t}, s = t → (g.op t).leads = true → (g.op s).passes g ch = false := by
    rintro t rfl ht
    exact passes_of_leads ht ch
  induction h with
  | empty => omega
  | @char a c hop | @any a hop | @anyof a cs hop | @bol a hop | @eol a hop =>
    obtain rfl : s = a := by omega
    rw [hop]
    rcases hch with rfl | rfl <;> rfl
  | @cat r s' a mid b _ _ ih₁ ih₂ =>
    by_cases hs : s < mid
    · exact ih₁ hle hs
    · exact ih₂ (by omega) hlt
  | @group r i a mid hop _ hend ih =>
    by_cases ha : s = a
    · exact hleads ha (by rw [hop]; rfl)
    by_cases hmid : s = mid
    · exact hleads hmid (by rw [hend]; rfl)
    · exact ih (by omega) (by omega)
  | @plus r a n hop _ hend ih | @quest r a n hop _ hend ih =>
    by_cases ha : s = a
    · exact hleads ha (by rw [hop]; rfl)
    by_cases hmid : s = a + n
    · exact hleads hmid (by rw [hend]; rfl)
    · exact ih (by omega) (by omega)
  | @choice r s' a n mid k e hop _ hin hend halts ih₁ ih₂ =>
    by_cases ha : s = a
    · exact hleads ha (by rw [hop]; rfl)
    by_cases hs : s < mid
    · exact ih₁ (by omega) hs
    by_cases hmid : s = mid
    · exact hleads hmid (by rw [hend]; rfl)
    by_cases he : s = e
    · obtain ⟨j, hj⟩ := halts.laid.op_end rfl
      exact hleads he (by rw [hj]; rfl)
    · exact ih₂ (by omega) (by omega)
  | @last r p n k hop _ hend ih =>
    by_cases ha : s = p
    · exact hleads ha (by rw [hop]; rfl)
    · exact ih (by omega) hlt
  | @more r s' p n mid k e hop _ hin hend halts ih₁ ih₂ =>
    by_cases ha : s = p
    · exact hleads ha (by rw [hop]; rfl)
    by_cases hs : s < mid
    · exact ih₁ (by omega) hs
    by_cases hmid : s = mid
    · exact hleads hmid (by rw [hend]; rfl)
    · exact ih₂ (by omega) hlt

section regexec

variable {g : Guts} {r : Re}

@[simp] theorem Call.env_g (c : Call) : (c.env g).g = g := rfl

theorem Expression.part (h : Expression g r) : Part g (g.firststate + 1) g.laststate :=
  h.emit.laid.part h.lt

theorem Expression.word (h : Expression g r) {ch : Code} (hch : ch = .bow ∨ ch = .eow) (s t : Nat) :
    ¬ Pass g (g.firststate + 1) g.laststate ch s t := by
  rintro ⟨hle, hlt, hp, -⟩
  rw [h.emit.passes_word hch s hle hlt] at hp
  cases hp

theorem Expression.steps_small (h : Expression g r)
    (hs : Shallow g (g.firststate + 1) g.laststate) :
    Steps small g (g.firststate + 1) g.laststate :=
  ⟨.inl hs.bol, .inl hs.eol, .inl hs.boleol, h.word (.inl rfl), h.word (.inr rfl)⟩

theorem enough_large {start stop k N : Nat} {ch : Code}
    (h : ∀ s t, Pass g start stop ch s t → 0 < k) : Enough (large N) g start stop ch k := by
  by_cases hex : ∃ s t, Pass g start stop ch s t
  · obtain ⟨s, t, hp⟩ := hex
    exact .inr ⟨rfl, h s t hp⟩
  · exact .inl (few_none (fun s t hp => hex ⟨s, t, hp⟩) k)

theorem Expression.steps_large (h : Expression g r) :
    Steps (large g.nstates) g (g.firststate + 1) g.laststate where
  bol := enough_large fun s _ hp =>
    h.nbol s (hp.2.1.trans h.lt) ((passes_bol_iff _).1 hp.2.2.1)
  eol := enough_large fun s _ hp =>
    h.neol s (hp.2.1.trans h.lt) ((passes_eol_iff _).1 hp.2.2.1)
  boleol := enough_large fun s _ hp => by
    rcases (passes_boleol_iff _).1 hp.2.2.1 with hop | hop
    · have := h.nbol s (hp.2.1.trans h.lt) hop
      omega
    · have := h.neol s (hp.2.1.trans h.lt) hop
      omega
  bow := h.word (.inl rfl)
  eow := h.word (.inr rfl)

theorem whereStarts_first {slow : Slow} {stop gf gl fuel coldp so eo : Nat}
    (h : whereStarts slow stop gf gl fuel coldp = some (so, eo)) (hle : coldp ≤ stop) :
    coldp ≤ so ∧ so ≤ stop ∧ slow so stop gf gl = some eo ∧
      ∀ x, coldp ≤ x → x < so → slow x stop gf gl = none := by
  induction fuel generalizing coldp with
  | zero => cases h
  | succ fuel ih =>
    unfold whereStarts at h
    cases hs : slow coldp stop gf gl with
    | some endp =>
      rw [hs] at h
      cases h
      exact ⟨le_rfl, hle, hs, fun x hx hlt => by omega⟩
    | none =>
      rw [hs] at h
      by_cases hstop : stop ≤ coldp
      · simp only [if_pos hstop] at h
        cases h
      · simp only [if_neg hstop] at h
        obtain ⟨hso, hle', heo, hno⟩ := ih h (by omega)
        refine ⟨by omega, hle', heo, fun x hx hlt => ?_⟩
        by_cases hxc : x = coldp
        · rwa [hxc]
        · exact hno x (by omega) hlt

theorem fill_cons {nmatch coldp endp : Nat} {pm : Pmatch} {hd : Regmatch} {tl : List Regmatch}
    (h : fill g nmatch coldp endp pm = hd :: tl) : hd = ⟨coldp, endp⟩ := by
  cases nmatch with
  | zero => cases h
  | succ n =>
    simp only [fill, List.range_succ_eq_map, List.map_cons, if_true, List.cons.injEq] at h
    exact h.1.symm

theorem matchLoop_head {fast : Nat → Nat → Nat → Nat → Nat × Option Nat} {slow : Slow}
    (hback : m.g.backrefs = false) {nmatch stop fuel start : Nat} {lastpos : Nat → Nat}
    {hd : Regmatch} {tl : List Regmatch}
    (h : matchLoop fast slow m false nmatch stop fuel start lastpos = some (.ok, hd :: tl)) :
    (fast start stop (m.g.firststate + 1) m.g.laststate).2 ≠ none ∧ ∃ so eo fuel',
      whereStarts slow stop (m.g.firststate + 1) m.g.laststate fuel'
        (fast start stop (m.g.firststate + 1) m.g.laststate).1 = some (so, eo) ∧
      hd = ⟨so, eo⟩ := by
  cases fuel with
  | zero => cases h
  | succ fuel =>
    simp only [matchLoop] at h
    generalize fast start stop (m.g.firststate + 1) m.g.laststate = r at h ⊢
    by_cases hmiss : r.2 = none
    · rw [if_pos hmiss] at h
      cases h
    rw [if_neg hmiss] at h
    by_cases hzero : nmatch = 0 ∧ (!m.g.backrefs) = true
    · rw [if_pos hzero] at h
      cases h
    rw [if_neg hzero] at h
    refine ⟨hmiss, ?_⟩
    cases hw : whereStarts slow stop (m.g.firststate + 1) m.g.laststate (stop + 2) r.1 with
    | none =>
      rw [hw] at h
      cases h
    | some se =>
      obtain ⟨so, eo⟩ := se
      refine ⟨so, eo, stop + 2, hw, ?_⟩
      simp only [hw, hback, Bool.not_false, and_true, Bool.and_self, if_true] at h
      by_cases hone : nmatch = 1
      · rw [if_pos hone] at h
        simp only [Option.some.injEq, Prod.mk.injEq, true_and] at h
        exact fill_cons h
      · rw [if_neg hone, Option.map_eq_some_iff] at h
        obtain ⟨pm, -, hpm⟩ := h
        simp only [Prod.mk.injEq, true_and] at hpm
        exact fill_cons hpm

theorem matcher_leftmost {σ : Type} {rep : Rep σ} {Valid : σ → Prop} (hr : Expression g r)
    (l : rep.Lawful g.nstates Valid) (hsteps : Steps rep g (g.firststate + 1) g.laststate)
    (hcold : Cold g (g.firststate + 1) g.laststate) (c : Call) (hbackr : c.backr = false)
    {hd : Regmatch} {tl : List Regmatch} (h : matcher rep g c = some (.ok, hd :: tl)) :
    ∃ so eo : Nat, hd = ⟨so, eo⟩ ∧ c.range.1 ≤ so ∧ eo ≤ c.range.2 ∧ Matches (c.env g) r so eo ∧
      (∀ x q, c.range.1 ≤ x → x < so → q ≤ c.range.2 → ¬ Matches (c.env g) r x q) ∧
      ∀ q, q ≤ c.range.2 → Matches (c.env g) r so q → q ≤ eo := by
  simp only [matcher] at h
  by_cases hinv : c.range.2 < c.range.1
  · rw [if_pos hinv] at h
    cases h
  rw [if_neg hinv] at h
  by_cases hmust : (g.must.any fun must => !hasMust c.text c.range.1 c.range.2 must) = true
  · rw [if_pos hmust] at h
    cases h
  rw [if_neg hmust, hbackr] at h
  have hmatch : ∀ x q, Full (c.env g) (g.firststate + 1) g.laststate x q g.laststate ↔
      Matches (c.env g) r x q := fun x q => journey_iff (m := c.env g) hr.emit hr.lt x q
  obtain ⟨hhit, so, eo, fuel, hw, rfl⟩ := matchLoop_head (m := c.env g) hr.backrefs h
  simp only [Call.env_g] at hhit hw
  have hb : Bound (c.env g) (g.firststate + 1) g.laststate c.range.1 c.range.2 _ :=
    (fast_bound l hr.part hsteps (show (c.env g).beginp ≤ c.range.1 from le_rfl) (by omega)
      (show c.range.2 ≤ _ from le_rfl)).2 hcold
  obtain ⟨x, q, hx, hq, hf⟩ := hb.hit hhit
  have := hf.le
  obtain ⟨hge, hle, hslow, hno⟩ := whereStarts_first hw (by omega)
  have hbest := fun x (hx : c.range.1 ≤ x) (hx' : x ≤ c.range.2) =>
    slow_best (m := c.env g) l hr.part hsteps hx hx' le_rfl
  have hge' := hb.ge
  have hso := hbest so (hge'.trans hge) hle
  obtain ⟨heo, hfull⟩ := hso.sound eo hslow
  refine ⟨so, eo, rfl, hge'.trans hge, heo, (hmatch so eo).1 hfull, fun x q hx hlt hq hm => ?_,
    fun q hq hm => ?_⟩
  · by_cases hxc : x < (fast rep (c.env g) c.range.1 c.range.2 (g.firststate + 1) g.laststate).1
    · exact hb.cold hhit x q hx hxc hq ((hmatch x q).2 hm)
    · obtain ⟨q', hq', -⟩ := (hbest x hx (by omega)).longest q hq ((hmatch x q).2 hm)
      rw [hno x (by omega) hlt] at hq'
      cases hq'
  · obtain ⟨q', hq', hle'⟩ := hso.longest q hq ((hmatch so q).2 hm)
    rw [hslow] at hq'
    cases hq'
    exact hle'

/-- The match that `regexec` reports is in the language, no match starts earlier, and none that
starts there is longer, for an expression where no character leads to a state that a match begins
with and, where the states fit a `long`, the anchors are stepped for. -/
theorem regexec_leftmost (g : Guts) (r : Re) (hr : Expression g r)
    (hcold : Cold g (g.firststate + 1) g.laststate)
    (hshallow : g.nstates ≤ 32 → Shallow g (g.firststate + 1) g.laststate) (c : Call)
    (hd : Regmatch) (tl : List Regmatch) (h : regexec g c = some (.ok, hd :: tl)) :
    ∃ so eo : Nat, hd = ⟨so, eo⟩ ∧ c.range.1 ≤ so ∧ eo ≤ c.range.2 ∧ Matches (c.env g) r so eo ∧
      (∀ x q, c.range.1 ≤ x → x < so → q ≤ c.range.2 → ¬ Matches (c.env g) r x q) ∧
      ∀ q, q ≤ c.range.2 → Matches (c.env g) r so q → q ≤ eo := by
  unfold regexec at h
  by_cases hfit : g.nstates ≤ 32
  · simp only [if_pos hfit] at h
    exact matcher_leftmost hr (small_lawful hfit) (hr.steps_small (hshallow hfit)) hcold
      { c with backr := false } rfl h
  · simp only [if_neg hfit] at h
    exact matcher_leftmost hr (large_lawful g.nstates) hr.steps_large hcold
      { c with backr := false } rfl h

/-- The expression of `anchored`. -/
def anchoredRe : Re :=
  .cat .bol (.cat (.plus (.group 1 (.alt (.char 97) (.char 98)))) (.char 99))

theorem expression_anchored : Expression anchored anchoredRe where
  emit := by
    have hlast : Emit anchored .alts (.char 98) 7 9 := .last (n := 2) rfl (.char rfl) (k := 3) rfl
    have hchoice : Emit anchored .items (.alt (.char 97) (.char 98)) 4 10 :=
      .choice (n := 3) (m := 6) rfl rfl (.char rfl) (k := 2) rfl hlast
    have hloop : Emit anchored .items (.plus (.group 1 (.alt (.char 97) (.char 98)))) 2 12 :=
      .plus (n := 9) rfl (.group (m := 10) rfl hchoice rfl) rfl
    exact .cat (.bol rfl) (.cat hloop (.char rfl))
  lt := by decide
  backrefs := rfl
  nbol := by decide
  neol := by decide

theorem cold_anchored : Cold anchored 1 13 := by
  rintro s c j ⟨hle, -, hp, rfl⟩ hm
  -- a match begins at the anchor
  rcases hm.cases_head with hs | ⟨t, ht, -⟩
  · obtain rfl : s = 0 := by omega
    omega
  · simp [Move, moves, anchored, Guts.op] at ht

theorem regexec_leftmost_anchored :
    regexec anchored abc = some (.ok, [⟨0, 3⟩, ⟨1, 2⟩]) ∧
      Matches (abc.env anchored) anchoredRe 0 3 := by
  have h : regexec anchored abc = some (.ok, [⟨0, 3⟩, ⟨1, 2⟩]) := by decide +kernel
  refine ⟨h, ?_⟩
  obtain ⟨so, eo, he, -, -, hm, -⟩ := regexec_leftmost anchored anchoredRe expression_anchored
    cold_anchored (fun _ => shallow_anchored 1 13 (by decide)) abc ⟨0, 3⟩ [⟨1, 2⟩] h
  simp only [Regmatch.mk.injEq] at he
  obtain rfl : so = 0 := by omega
  obtain rfl : eo = 3 := by omega
  exact hm

/-- `(x*|b)c`. -/
def late : Guts where
  strip := [.oend, .olparen 1, .och_ 7, .oquest_ 4, .oplus_ 2, .ochar 120, .o_plus 2, .o_quest 4,
    .oor1 6, .oor2 2, .ochar 98, .o_ch 3, .orparen 1, .ochar 99, .oend]
  sets _ _ := false
  nosub := false
  newline := false
  firststate := 0
  laststate := 14
  nbol := 0
  neol := 0
  must := some [99]
  nsub := 1
  backrefs := false
  nplus := 1

def lateRe : Re :=
  .cat (.group 1 (.alt (.quest (.plus (.char 120))) (.char 98))) (.char 99)

/-- `regexec` on `bc`. -/
def bc : Call where
  text p := [98, 99].getD p 0
  len := 2
  nmatch := 1
  startend := none
  notbol := false
  noteol := false
  backr := false

/-- After the `b` the states are those that a match begins with, and the match that is under way is
lost: `bc` matches from the start, and `c` is reported. -/
theorem regexec_late :
    Expression late lateRe ∧ regexec late bc = some (.ok, [⟨1, 2⟩]) ∧
      Matches (bc.env late) lateRe 0 2 := by
  refine ⟨⟨?_, by decide, rfl, by decide, by decide⟩, by decide +kernel, ?_⟩
  · have hlast : Emit late .alts (.char 98) 9 11 := .last (n := 2) rfl (.char rfl) (k := 3) rfl
    have hstar : Emit late .items (.quest (.plus (.char 120))) 3 8 :=
      .quest (n := 4) rfl (.plus (n := 2) rfl (.char rfl) rfl) rfl
    have hchoice : Emit late .items (.alt (.quest (.plus (.char 120))) (.char 98)) 2 12 :=
      .choice (n := 7) (m := 8) rfl rfl hstar (k := 6) rfl hlast
    exact .cat (.group (m := 12) rfl hchoice rfl) (.char rfl)
  · exact ⟨1, .inr ⟨by decide, rfl, rfl⟩, by decide, rfl, rfl⟩

theorem matchLoop_nomatch {fast : Nat → Nat → Nat → Nat → Nat × Option Nat} {slow : Slow}
    (hback : m.g.backrefs = false) {nmatch stop fuel start : Nat} {lastpos : Nat → Nat} :
    matchLoop fast slow m false nmatch stop (fuel + 1) start lastpos = some (.nomatch, []) ↔
      (fast start stop (m.g.firststate + 1) m.g.laststate).2 = none := by
  simp only [matchLoop, hback, Bool.not_false, and_true, Bool.and_self, if_true]
  by_cases hmiss : (fast start stop (m.g.firststate + 1) m.g.laststate).2 = none
  · rw [if_pos hmiss]
    exact iff_of_true rfl hmiss
  · rw [if_neg hmiss]
    refine iff_of_false (fun h => ?_) hmiss
    generalize whereStarts slow stop _ _ _ _ = w at h
    split_ifs at h
    · cases h
    · cases w <;> cases h
    · cases w with
      | none => cases h
      | some se =>
        obtain ⟨pm, -, hpm⟩ := Option.map_eq_some_iff.1 h
        cases hpm

/-- Where there is a match, there is the string that all matches have. -/
def Needed (g : Guts) (r : Re) (c : Call) : Prop :=
  ∀ must ∈ g.must, ∀ x q, c.range.1 ≤ x → q ≤ c.range.2 → Matches (c.env g) r x q →
    hasMust c.text c.range.1 c.range.2 must = true

theorem matcher_nomatch_iff {σ : Type} {rep : Rep σ} {Valid : σ → Prop} (hr : Expression g r)
    (l : rep.Lawful g.nstates Valid) (hsteps : Steps rep g (g.firststate + 1) g.laststate)
    (c : Call) (hbackr : c.backr = false) (hrange : c.range.1 ≤ c.range.2)
    (hneeded : Needed g r c) :
    matcher rep g c = some (.nomatch, []) ↔
      ∀ x q, c.range.1 ≤ x → q ≤ c.range.2 → ¬ Matches (c.env g) r x q := by
  have hmatch : ∀ x q, Full (c.env g) (g.firststate + 1) g.laststate x q g.laststate ↔
      Matches (c.env g) r x q := fun x q => journey_iff (m := c.env g) hr.emit hr.lt x q
  simp only [matcher, if_neg (Nat.not_lt.2 hrange)]
  by_cases hmissing : (g.must.any fun must => !hasMust c.text c.range.1 c.range.2 must) = true
  · rw [if_pos hmissing]
    refine iff_of_true rfl fun x q hx hq hm => ?_
    cases hmust : g.must with
    | none => simp [hmust] at hmissing
    | some must => simp [hmust, hneeded must hmust x q hx hq hm] at hmissing
  · rw [if_neg hmissing, hbackr]
    refine (matchLoop_nomatch (m := c.env g) hr.backrefs).trans
      ((fast_bound l hr.part hsteps (show (c.env g).beginp ≤ c.range.1 from le_rfl) hrange
        le_rfl).1.trans ?_)
    simp only [Call.env_g, hmatch]

/-- `regexec` reports no match just when there is none. -/
theorem regexec_nomatch_iff (hr : Expression g r)
    (hshallow : g.nstates ≤ 32 → Shallow g (g.firststate + 1) g.laststate) (c : Call)
    (hrange : c.range.1 ≤ c.range.2) (hneeded : Needed g r c) :
    regexec g c = some (.nomatch, []) ↔
      ∀ x q, c.range.1 ≤ x → q ≤ c.range.2 → ¬ Matches (c.env g) r x q := by
  unfold regexec
  by_cases hfit : g.nstates ≤ 32
  · simp only [if_pos hfit]
    exact matcher_nomatch_iff hr (small_lawful hfit) (hr.steps_small (hshallow hfit))
      { c with backr := false } rfl hrange hneeded
  · simp only [if_neg hfit]
    exact matcher_nomatch_iff hr (large_lawful g.nstates) hr.steps_large
      { c with backr := false } rfl hrange hneeded

theorem regexec_nomatch_iff_anchored :
    ¬ ∀ x q, 0 ≤ x → q ≤ 3 → ¬ Matches (abc.env anchored) anchoredRe x q :=
  mt (regexec_nomatch_iff expression_anchored
    (fun _ => shallow_anchored 1 13 (by decide)) abc (by decide)
    (by rintro _ ⟨⟩ _ _ _ _ _; decide)).2 (by decide +kernel)

end regexec

end Bsdi.Regex
