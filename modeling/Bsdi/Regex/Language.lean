import Bsdi.Regex.Matchers

/-!
# The language of an expression

What an expression matches, and the journeys through its strip: from the first operator of a part
to its end, over the string. They are the same.
-/

namespace Bsdi.Regex

/-- Expressions without word boundaries and back references, with `x{m,n}` written out. -/
inductive Re
  | empty
  | char (c : Byte)
  | any
  | anyof (cs : Nat)
  | bol
  | eol
  | cat (r s : Re)
  | alt (r s : Re)
  | plus (r : Re)
  | quest (r : Re)
  | group (i : Nat) (r : Re)

/-- The part `[p, q)` of the string is in the language of the expression. -/
def Matches (m : Env) : Re → Nat → Nat → Prop
  | .empty, p, q => p = q
  | .char c, p, q => p < m.endp ∧ m.text p = c ∧ q = p + 1
  | .any, p, q => p < m.endp ∧ q = p + 1
  | .anyof cs, p, q => p < m.endp ∧ m.g.sets cs (m.text p) = true ∧ q = p + 1
  | .bol, p, q => m.startsLine (m.before p) = true ∧ q = p
  | .eol, p, q => m.endsLine (m.char p) = true ∧ q = p
  | .cat r s, p, q => ∃ k, Matches m r p k ∧ Matches m s k q
  | .alt r s, p, q => Matches m r p q ∨ Matches m s p q
  | .plus r, p, q => Relation.TransGen (Matches m r) p q
  | .quest r, p, q => p = q ∨ Matches m r p q
  | .group _ r, p, q => Matches m r p q

/-- The strip from `a` to `b` is that of an expression, or of the branches of a choice from the
second on. -/
inductive Emit (g : Guts) : Kind → Re → Nat → Nat → Prop
  | empty (a : Nat) : Emit g .items .empty a a
  | char {a : Nat} {c : Byte} : g.op a = .ochar c → Emit g .items (.char c) a (a + 1)
  | any {a : Nat} : g.op a = .oany → Emit g .items .any a (a + 1)
  | anyof {a cs : Nat} : g.op a = .oanyof cs → Emit g .items (.anyof cs) a (a + 1)
  | bol {a : Nat} : g.op a = .obol → Emit g .items .bol a (a + 1)
  | eol {a : Nat} : g.op a = .oeol → Emit g .items .eol a (a + 1)
  | cat {r s : Re} {a m b : Nat} : Emit g .items r a m → Emit g .items s m b →
      Emit g .items (.cat r s) a b
  | group {r : Re} {i a m : Nat} : g.op a = .olparen i → Emit g .items r (a + 1) m →
      g.op m = .orparen i → Emit g .items (.group i r) a (m + 1)
  | plus {r : Re} {a n : Nat} : g.op a = .oplus_ n → Emit g .items r (a + 1) (a + n) →
      g.op (a + n) = .o_plus n → Emit g .items (.plus r) a (a + n + 1)
  | quest {r : Re} {a n : Nat} : g.op a = .oquest_ n → Emit g .items r (a + 1) (a + n) →
      g.op (a + n) = .o_quest n → Emit g .items (.quest r) a (a + n + 1)
  | choice {r s : Re} {a n m k e : Nat} : g.op a = .och_ n → m + 1 = a + n →
      Emit g .items r (a + 1) m → g.op m = .oor1 k → Emit g .alts s (m + 1) e →
      Emit g .items (.alt r s) a (e + 1)
  | last {r : Re} {p n k : Nat} : g.op p = .oor2 n → Emit g .items r (p + 1) (p + n) →
      g.op (p + n) = .o_ch k → Emit g .alts r p (p + n)
  | more {r s : Re} {p n m k e : Nat} : g.op p = .oor2 n → m + 1 = p + n →
      Emit g .items r (p + 1) m → g.op m = .oor1 k → Emit g .alts s (m + 1) e →
      Emit g .alts (.alt r s) p e

variable {g : Guts} {kind : Kind} {r : Re} {a b c d : Nat}

theorem Laid.append (h : Laid g kind a b) (hk : kind = .items) (h' : Laid g .items b c) :
    Laid g .items a c := by
  induction h with
  | nil => exact h'
  | alone hop _ ih => exact .alone hop (ih rfl h')
  | plus hop hin hend _ _ ih => exact .plus hop hin hend (ih rfl h')
  | quest hop hin hend _ _ ih => exact .quest hop hin hend (ih rfl h')
  | choice hop hm hin hend halts _ _ _ ih => exact .choice hop hm hin hend halts (ih rfl h')
  | last | more => cases hk

theorem Laid.single (h : (g.op a).alone = true) : Laid g .items a (a + 1) :=
  .alone h (.nil _)

theorem Emit.laid (h : Emit g kind r a b) : Laid g kind a b := by
  induction h with
  | empty a => exact .nil a
  | char hop | any hop | anyof hop | bol hop | eol hop =>
    exact .single (by rw [hop]; rfl)
  | cat _ _ ih₁ ih₂ => exact ih₁.append rfl ih₂
  | group hop _ hend ih =>
    exact .alone (by rw [hop]; rfl) (ih.append rfl (.single (by rw [hend]; rfl)))
  | plus hop _ hend ih => exact .plus hop ih hend (.nil _)
  | quest hop _ hend ih => exact .quest hop ih hend (.nil _)
  | choice hop hm _ hend _ ih₁ ih₂ => exact .choice hop hm ih₁ hend ih₂ (.nil _)
  | last hop _ hend ih => exact .last hop ih hend
  | more hop hm _ hend _ ih₁ ih₂ => exact .more hop hm ih₁ hend ih₂

section journey

variable {m : Env} {x y z : Nat × Nat}

/-- The operator at `s` is passed at `p`, and leads to `q`. -/
def Takes (m : Env) (s p q : Nat) : Prop :=
  (p < m.endp ∧ (m.g.op s).passes m.g (.char (m.text p)) = true ∧ q = p + 1) ∨
  (m.g.op s = .obol ∧ m.startsLine (m.before p) = true ∧ q = p) ∨
  (m.g.op s = .oeol ∧ m.endsLine (m.char p) = true ∧ q = p)

def Hop (m : Env) (start stop : Nat) (x y : Nat × Nat) : Prop :=
  start ≤ x.1 ∧ x.1 < stop ∧
    (y.1 ∈ moves m.g x.1 ∧ y.2 = x.2 ∨ Takes m x.1 x.2 y.2 ∧ y.1 = x.1 + 1)

abbrev Journey (m : Env) (start stop : Nat) : Nat × Nat → Nat × Nat → Prop :=
  Relation.ReflTransGen (Hop m start stop)

theorem Journey.mono (h : Journey m c d x y) (hac : a ≤ c) (hdb : d ≤ b) : Journey m a b x y := by
  refine h.lift id fun x y hop => ?_
  obtain ⟨hle, hlt, hop⟩ := hop
  exact ⟨hac.trans hle, hlt.trans_le hdb, hop⟩

theorem Hop.within (hpart : Part m.g c d) (h : Hop m a b x y) (hx : c ≤ x.1) (hx' : x.1 < d) :
    c ≤ y.1 ∧ y.1 ≤ d := by
  rcases h.2.2 with ⟨ht, -⟩ | ⟨-, hy⟩
  · exact hpart.within x.1 hx hx' y.1 ht
  · omega

theorem Journey.leave (hpart : Part m.g c d) (h : Journey m a b x y) (hx : c ≤ x.1) (hx' : x.1 ≤ d)
    (hy : y.1 < c ∨ d ≤ y.1) : ∃ k, Journey m c d x (d, k) ∧ Journey m a b (d, k) y := by
  induction h using Relation.ReflTransGen.head_induction_on with
  | refl =>
    have hd : y = (d, y.2) := Prod.ext (by omega) rfl
    exact ⟨y.2, hd ▸ .refl, hd ▸ .refl⟩
  | @head x z hhop hrest ih =>
    by_cases hd : x.1 = d
    · have hd : x = (d, x.2) := Prod.ext hd rfl
      exact ⟨x.2, hd ▸ .refl, hd ▸ hrest.head hhop⟩
    · have hz := hhop.within hpart hx (by omega)
      obtain ⟨k, hk, hk'⟩ := ih hz.1 hz.2
      exact ⟨k, hk.head ⟨hx, by omega, hhop.2.2⟩, hk'⟩

theorem Journey.stay (hpart : Part m.g c b) (h : Journey m a b x y) (hx : c ≤ x.1) :
    Journey m c b x y := by
  induction h using Relation.ReflTransGen.head_induction_on with
  | refl => exact .refl
  | @head x z hhop _ ih =>
    exact (ih (hhop.within hpart hx hhop.2.1).1).head ⟨hx, hhop.2.1, hhop.2.2⟩

theorem Journey.eq_of_stop (h : Journey m a b x y) (hx : b ≤ x.1) : x = y := by
  induction h using Relation.ReflTransGen.head_induction_on with
  | refl => rfl
  | head hhop =>
    have := hhop.2.1
    omega

def Sop.leads : Sop → Bool
  | .oplus_ _ | .o_plus _ | .oquest_ _ | .o_quest _ | .olparen _ | .orparen _ | .och_ _ | .oor1 _
  | .oor2 _ | .o_ch _ => true
  | _ => false

theorem not_takes {s p q : Nat} (h : (m.g.op s).leads = true) : ¬ Takes m s p q := by
  unfold Takes
  cases hop : m.g.op s <;> rw [hop] at h <;>
    first
    | exact absurd h Bool.false_ne_true
    | rintro (⟨-, hp, -⟩ | ⟨he, -⟩ | ⟨he, -⟩)
      · exact absurd hp Bool.false_ne_true
      · cases he
      · cases he

theorem Journey.head_leads (h : Journey m a b x y) (hop : (m.g.op x.1).leads = true)
    (hne : x.1 ≠ y.1) : ∃ t ∈ moves m.g x.1, Journey m a b (t, x.2) y := by
  rcases h.cases_head with rfl | ⟨z, ⟨-, -, hz⟩, hrest⟩
  · exact absurd rfl hne
  · rcases hz with ⟨ht, hp⟩ | ⟨ht, -⟩
    · refine ⟨z.1, ht, ?_⟩
      rwa [← hp]
    · exact absurd ht (not_takes hop)

theorem Journey.move {s t p : Nat} (hs : a ≤ s) (hs' : s < b) (ht : t ∈ moves m.g s)
    (h : Journey m a b (t, p) y) : Journey m a b (s, p) y :=
  .head (show Hop m a b (s, p) (t, p) from ⟨hs, hs', .inl ⟨ht, rfl⟩⟩) h

theorem journey_single {s : Nat} (hm : moves m.g s = []) (p q : Nat) :
    Journey m s (s + 1) (s, p) (s + 1, q) ↔ Takes m s p q := by
  constructor
  · intro h
    rcases h.cases_head with he | ⟨z, ⟨-, -, hz⟩, hrest⟩
    · cases he
    · rcases hz with ⟨ht, -⟩ | ⟨ht, hz⟩
      · simp [hm] at ht
      · have := Journey.eq_of_stop hrest (by simp only [hz]; omega)
        rw [this] at ht
        exact ht
  · intro h
    exact .single ⟨le_rfl, Nat.lt_succ_self s, .inr ⟨h, rfl⟩⟩

theorem takes_ochar {s p q : Nat} {c : Byte} (hop : m.g.op s = .ochar c) :
    Takes m s p q ↔ p < m.endp ∧ m.text p = c ∧ q = p + 1 := by
  have hpass : (Sop.ochar c).passes m.g (.char (m.text p)) =
      decide (Code.char (m.text p) = .char c) := rfl
  simp [Takes, hop, hpass]

theorem takes_oany {s p q : Nat} (hop : m.g.op s = .oany) :
    Takes m s p q ↔ p < m.endp ∧ q = p + 1 := by
  have hpass : Sop.oany.passes m.g (.char (m.text p)) = true := rfl
  simp [Takes, hop, hpass]

theorem takes_oanyof {s p q cs : Nat} (hop : m.g.op s = .oanyof cs) :
    Takes m s p q ↔ p < m.endp ∧ m.g.sets cs (m.text p) = true ∧ q = p + 1 := by
  have hpass : (Sop.oanyof cs).passes m.g (.char (m.text p)) = m.g.sets cs (m.text p) := rfl
  simp [Takes, hop, hpass]

theorem takes_obol {s p q : Nat} (hop : m.g.op s = .obol) :
    Takes m s p q ↔ m.startsLine (m.before p) = true ∧ q = p := by
  have hpass : Sop.obol.passes m.g (.char (m.text p)) = false := rfl
  simp [Takes, hop, hpass]

theorem takes_oeol {s p q : Nat} (hop : m.g.op s = .oeol) :
    Takes m s p q ↔ m.endsLine (m.char p) = true ∧ q = p := by
  have hpass : Sop.oeol.passes m.g (.char (m.text p)) = false := rfl
  simp [Takes, hop, hpass]

theorem moves_oor1 {k e : Nat} (hop : g.op a = .oor1 k) (h : Laid g .alts (a + 1) e)
    (he : e < g.nstates) : moves g a = [e] := by
  have hle := h.le
  simp only [moves, hop, h.findCh rfl g.nstates (by omega), List.cons.injEq, and_true]
  omega

theorem moves_oor2 {n : Nat} (hop : g.op a = .oor2 n) (hnext : ∃ k, g.op (a + n) = .oor2 k) :
    moves g a = [a + 1, a + n] := by
  obtain ⟨k, hk⟩ := hnext
  simp only [moves, hop, hk]

theorem Emit.journey (h : Emit m.g kind r a b) (hb : b < m.g.nstates) {p q : Nat}
    (hm : Matches m r p q) : Journey m a b (a, p) (b, q) := by
  induction h generalizing p q with
  | empty a =>
    obtain rfl : p = q := hm
    exact .refl
  | char hop => exact (journey_single (by simp [moves, hop]) p q).2 ((takes_ochar hop).2 hm)
  | any hop => exact (journey_single (by simp [moves, hop]) p q).2 ((takes_oany hop).2 hm)
  | anyof hop => exact (journey_single (by simp [moves, hop]) p q).2 ((takes_oanyof hop).2 hm)
  | bol hop => exact (journey_single (by simp [moves, hop]) p q).2 ((takes_obol hop).2 hm)
  | eol hop => exact (journey_single (by simp [moves, hop]) p q).2 ((takes_oeol hop).2 hm)
  | @cat r s a mid b hr hs ih₁ ih₂ =>
    obtain ⟨k, hrk, hsk⟩ := hm
    have := hs.laid.le
    have := hr.laid.le
    exact ((ih₁ (by omega) hrk).mono le_rfl (by omega)).trans ((ih₂ hb hsk).mono (by omega) le_rfl)
  | @group r i a mid hop hin hend ih =>
    have := hin.laid.le
    refine Journey.move le_rfl (by omega) (show a + 1 ∈ moves m.g a by simp [moves, hop]) ?_
    refine ((ih (by omega) hm).mono (by omega) (by omega)).trans ?_
    exact Journey.move (by omega) (by omega) (by simp [moves, hend]) .refl
  | @plus r a n hop hin hend ih =>
    have := hin.laid.le
    have hbody : ∀ {p q}, Matches m r p q → Journey m a (a + n + 1) (a, p) (a + n, q) := by
      intro p q hpq
      refine Journey.move le_rfl (by omega) (show a + 1 ∈ moves m.g a by simp [moves, hop]) ?_
      exact (ih (by omega) hpq).mono (by omega) (by omega)
    -- round the loop, up to its end
    have hround : Journey m a (a + n + 1) (a, p) (a + n, q) := by
      replace hm : Relation.TransGen (Matches m r) p q := hm
      induction hm with
      | single hpq => exact hbody hpq
      | tail _ hkq ih' =>
        refine ih'.trans (Journey.move (by omega) (by omega) ?_ (hbody hkq))
        simp [moves, hend]
    refine hround.trans (Journey.move (by omega) (by omega) ?_ .refl)
    simp [moves, hend]
  | @quest r a n hop hin hend ih =>
    have := hin.laid.le
    have hout : Journey m a (a + n + 1) (a + n, q) (a + n + 1, q) :=
      Journey.move (by omega) (by omega) (by simp [moves, hend]) .refl
    rcases hm with rfl | hm
    · exact Journey.move le_rfl (by omega) (by simp [moves, hop]) hout
    · refine Journey.move le_rfl (by omega) (show a + 1 ∈ moves m.g a by simp [moves, hop]) ?_
      exact ((ih (by omega) hm).mono (by omega) (by omega)).trans hout
  | @choice r s a n mid k e hop hmid hin hend halts ih₁ ih₂ =>
    have := hin.laid.le
    have := halts.laid.le
    obtain ⟨j, hj⟩ := halts.laid.op_end rfl
    have hout : Journey m a (e + 1) (e, q) (e + 1, q) :=
      Journey.move (by omega) (by omega) (by simp [moves, hj]) .refl
    rcases hm with hm | hm
    · refine Journey.move le_rfl (by omega) (show a + 1 ∈ moves m.g a by simp [moves, hop]) ?_
      refine ((ih₁ (by omega) hm).mono (by omega) (by omega)).trans ?_
      refine Journey.move (by omega) (by omega) ?_ hout
      simp [moves_oor1 hend halts.laid (by omega)]
    · refine Journey.move le_rfl (by omega) (show mid + 1 ∈ moves m.g a by simp [moves, hop, hmid]) ?_
      exact ((ih₂ (by omega) hm).mono (by omega) (by omega)).trans hout
  | @last r p' n k hop hin hend ih =>
    have := hin.laid.le
    refine Journey.move le_rfl (by omega) (show p' + 1 ∈ moves m.g p' by simp [moves, hop, hend]) ?_
    exact (ih hb hm).mono (by omega) le_rfl
  | @more r s p' n mid k e hop hmid hin hend halts ih₁ ih₂ =>
    have := hin.laid.le
    have := halts.laid.le
    have hmoves := moves_oor2 hop (hmid ▸ halts.laid.op_alts rfl)
    rcases hm with hm | hm
    · refine Journey.move le_rfl (by omega) (show p' + 1 ∈ moves m.g p' by simp [hmoves]) ?_
      refine ((ih₁ (by omega) hm).mono (by omega) (by omega)).trans ?_
      refine Journey.move (by omega) (by omega) ?_ .refl
      simp [moves_oor1 hend halts.laid hb]
    · refine Journey.move le_rfl (by omega) (show mid + 1 ∈ moves m.g p' by simp [hmoves, hmid]) ?_
      exact (ih₂ hb hm).mono (by omega) le_rfl

theorem Journey.plus {n q : Nat} (hop : m.g.op a = .oplus_ n)
    (hin : Laid m.g .items (a + 1) (a + n)) (hend : m.g.op (a + n) = .o_plus n)
    (hlt : a + n < m.g.nstates) (R : Nat → Nat → Prop)
    (hR : ∀ p q, Journey m (a + 1) (a + n) (a + 1, p) (a + n, q) → R p q) {x : Nat × Nat}
    (h : Journey m a (a + n + 1) x (a + n + 1, q)) :
    (x.1 = a → Relation.TransGen R x.2 q) ∧ (a + 1 ≤ x.1 → x.1 ≤ a + n →
      ∃ k, Journey m (a + 1) (a + n) x (a + n, k) ∧ (k = q ∨ Relation.TransGen R k q)) := by
  have hle := hin.le
  have hpart := hin.part hlt
  induction h using Relation.ReflTransGen.head_induction_on with
  | refl => exact ⟨fun hx => by simp at hx; omega, fun _ hx => by simp at hx⟩
  | @head x z hhop hrest ih =>
    constructor
    · intro hx
      -- into the loop
      have hz : z = (a + 1, x.2) := by
        rcases hhop.2.2 with ⟨hz, hz'⟩ | ⟨htakes, -⟩
        · exact Prod.ext (by simpa [hx, moves, hop] using hz) hz'
        · exact absurd htakes (not_takes (by rw [hx, hop]; rfl))
      obtain ⟨k, hk, hkq⟩ := ih.2 (by simp [hz]) (by simp [hz]; omega)
      rw [hz] at hk
      rcases hkq with rfl | hkq
      · exact .single (hR _ _ hk)
      · exact .head (hR _ _ hk) hkq
    · intro hx hx'
      by_cases hend' : x.1 = a + n
      · -- at the end of the loop: out, or round again
        have hxe : x = (a + n, x.2) := Prod.ext hend' rfl
        refine ⟨x.2, hxe ▸ .refl, ?_⟩
        have hz : (z.1 = a + n + 1 ∨ z.1 = a) ∧ z.2 = x.2 := by
          rcases hhop.2.2 with ⟨hz, hz'⟩ | ⟨htakes, -⟩
          · exact ⟨by simpa [hend', moves, hend] using hz, hz'⟩
          · exact absurd htakes (not_takes (by rw [hend', hend]; rfl))
        rw [← hz.2]
        rcases hz.1 with hz | hz
        · exact .inl (congrArg Prod.snd (Journey.eq_of_stop hrest (by omega)))
        · exact .inr (ih.1 hz)
      · have hz := hhop.within hpart hx (by omega)
        obtain ⟨k, hk, hkq⟩ := ih.2 hz.1 hz.2
        exact ⟨k, hk.head ⟨hx, by omega, hhop.2.2⟩, hkq⟩

theorem Emit.matches (h : Emit m.g kind r a b) (hb : b < m.g.nstates) {p q : Nat}
    (hj : Journey m a b (a, p) (b, q)) : Matches m r p q := by
  induction h generalizing p q with
  | empty a => exact congrArg Prod.snd (hj.eq_of_stop le_rfl)
  | char hop => exact (takes_ochar hop).1 ((journey_single (by simp [moves, hop]) p q).1 hj)
  | any hop => exact (takes_oany hop).1 ((journey_single (by simp [moves, hop]) p q).1 hj)
  | anyof hop => exact (takes_oanyof hop).1 ((journey_single (by simp [moves, hop]) p q).1 hj)
  | bol hop => exact (takes_obol hop).1 ((journey_single (by simp [moves, hop]) p q).1 hj)
  | eol hop => exact (takes_oeol hop).1 ((journey_single (by simp [moves, hop]) p q).1 hj)
  | @cat r s a mid b hr hs ih₁ ih₂ =>
    have := hs.laid.le
    have := hr.laid.le
    obtain ⟨k, hk, hk'⟩ := hj.leave (hr.laid.part (by omega)) le_rfl (by simpa) (by simp; omega)
    exact ⟨k, ih₁ (by omega) hk, ih₂ hb (Journey.stay (hs.laid.part hb) hk' le_rfl)⟩
  | @group r i a mid hop hin hend ih =>
    have := hin.laid.le
    obtain ⟨t, ht, hj⟩ := hj.head_leads (by simp only [hop]; rfl) (by simp; omega)
    obtain rfl : t = a + 1 := by simpa [moves, hop] using ht
    obtain ⟨k, hk, hj⟩ := hj.leave (hin.laid.part (by omega)) le_rfl (by simpa) (by simp)
    obtain ⟨t, ht, hj⟩ := hj.head_leads (by simp only [hend]; rfl) (by simp)
    obtain rfl : t = mid + 1 := by simpa [moves, hend] using ht
    obtain rfl : k = q := congrArg Prod.snd (Journey.eq_of_stop hj le_rfl)
    exact ih (by omega) hk
  | @plus r a n hop hin hend ih =>
    exact (Journey.plus hop hin.laid hend (by omega) (Matches m r)
      (fun p q hpq => ih (by omega) hpq) hj).1 rfl
  | @quest r a n hop hin hend ih =>
    have := hin.laid.le
    have hout : ∀ k, Journey m a (a + n + 1) (a + n, k) (a + n + 1, q) → k = q := by
      intro k hj
      obtain ⟨t, ht, hj⟩ := hj.head_leads (by simp only [hend]; rfl) (by simp)
      obtain rfl : t = a + n + 1 := by simpa [moves, hend] using ht
      exact congrArg Prod.snd (Journey.eq_of_stop hj le_rfl)
    obtain ⟨t, ht, hj⟩ := hj.head_leads (by simp only [hop]; rfl) (by simp; omega)
    have ht : t = a + 1 ∨ t = a + n := by simpa [moves, hop] using ht
    rcases ht with rfl | rfl
    · obtain ⟨k, hk, hj⟩ := hj.leave (hin.laid.part (by omega)) le_rfl (by simpa) (by simp)
      rw [← hout k hj]
      exact .inr (ih (by omega) hk)
    · exact .inl (hout p hj)
  | @choice r s a n mid k e hop hmid hin hend halts ih₁ ih₂ =>
    have := hin.laid.le
    have := halts.laid.le
    obtain ⟨j, hj'⟩ := halts.laid.op_end rfl
    have hout : ∀ k, Journey m a (e + 1) (e, k) (e + 1, q) → k = q := by
      intro k hj
      obtain ⟨t, ht, hj⟩ := hj.head_leads (by simp only [hj']; rfl) (by simp)
      obtain rfl : t = e + 1 := by simpa [moves, hj'] using ht
      exact congrArg Prod.snd (Journey.eq_of_stop hj le_rfl)
    obtain ⟨t, ht, hj⟩ := hj.head_leads (by simp only [hop]; rfl) (by simp; omega)
    have ht : t = a + 1 ∨ t = mid + 1 := by simpa [moves, hop, hmid] using ht
    rcases ht with rfl | rfl
    · obtain ⟨k, hk, hj⟩ := hj.leave (hin.laid.part (by omega)) le_rfl (by simpa) (by simp; omega)
      obtain ⟨t, ht, hj⟩ := hj.head_leads (by simp only [hend]; rfl) (by simp; omega)
      obtain rfl : t = e := by simpa [moves_oor1 hend halts.laid (by omega)] using ht
      rw [← hout k hj]
      exact .inl (ih₁ (by omega) hk)
    · obtain ⟨k, hk, hj⟩ := hj.leave (halts.laid.part (by omega)) le_rfl (by simpa) (by simp)
      rw [← hout k hj]
      exact .inr (ih₂ (by omega) hk)
  | @last r p' n k hop hin hend ih =>
    have := hin.laid.le
    obtain ⟨t, ht, hj⟩ := hj.head_leads (by simp only [hop]; rfl) (by simp; omega)
    obtain rfl : t = p' + 1 := by simpa [moves, hop, hend] using ht
    exact ih hb (hj.stay (hin.laid.part hb) le_rfl)
  | @more r s p' n mid k e hop hmid hin hend halts ih₁ ih₂ =>
    have := hin.laid.le
    have := halts.laid.le
    have hmoves := moves_oor2 hop (hmid ▸ halts.laid.op_alts rfl)
    obtain ⟨t, ht, hj⟩ := hj.head_leads (by simp only [hop]; rfl) (by simp; omega)
    have ht : t = p' + 1 ∨ t = mid + 1 := by simpa [hmoves, hmid] using ht
    rcases ht with rfl | rfl
    · obtain ⟨k, hk, hj⟩ := hj.leave (hin.laid.part (by omega)) le_rfl (by simpa) (by simp; omega)
      obtain ⟨t, ht, hj⟩ := hj.head_leads (by simp only [hend]; rfl) (by simp; omega)
      obtain rfl : t = e := by simpa [moves_oor1 hend halts.laid hb] using ht
      obtain rfl : k = q := congrArg Prod.snd (Journey.eq_of_stop hj le_rfl)
      exact .inl (ih₁ (by omega) hk)
    · exact .inr (ih₂ hb (hj.stay (halts.laid.part hb) le_rfl))

theorem journey_iff (h : Emit m.g kind r a b) (hb : b < m.g.nstates) (p q : Nat) :
    Journey m a b (a, p) (b, q) ↔ Matches m r p q :=
  ⟨h.matches hb, h.journey hb⟩

end journey

end Bsdi.Regex
