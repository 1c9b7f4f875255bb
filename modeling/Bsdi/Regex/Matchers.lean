import Bsdi.Regex.Agree

/-!
# Small and large matchers

`smatcher` and `lmatcher` agree on an expression where every anchor is stepped for: what the empty
moves and the anchors reach, they reach over as many anchors as `fast` and `slow` take steps for.
-/

namespace Bsdi.Regex

def Sop.alone : Sop → Bool
  | .ochar _ | .obol | .oeol | .oany | .oanyof _ | .oback_ _ | .o_back _ | .olparen _
  | .orparen _ | .obow | .oeow => true
  | _ => false

inductive Kind
  | items
  | alts

/-- What the compiler emits: a sequence of items, or the branches of a choice from the second on,
each behind its `OOR2`. -/
inductive Laid (g : Guts) : Kind → Nat → Nat → Prop
  | nil (a : Nat) : Laid g .items a a
  | alone {a b : Nat} : (g.op a).alone = true → Laid g .items (a + 1) b → Laid g .items a b
  | plus {a n b : Nat} : g.op a = .oplus_ n → Laid g .items (a + 1) (a + n) →
      g.op (a + n) = .o_plus n → Laid g .items (a + n + 1) b → Laid g .items a b
  | quest {a n b : Nat} : g.op a = .oquest_ n → Laid g .items (a + 1) (a + n) →
      g.op (a + n) = .o_quest n → Laid g .items (a + n + 1) b → Laid g .items a b
  | choice {a n m k e b : Nat} : g.op a = .och_ n → m + 1 = a + n → Laid g .items (a + 1) m →
      g.op m = .oor1 k → Laid g .alts (m + 1) e → Laid g .items (e + 1) b → Laid g .items a b
  | last {p n k : Nat} : g.op p = .oor2 n → Laid g .items (p + 1) (p + n) →
      g.op (p + n) = .o_ch k → Laid g .alts p (p + n)
  | more {p n m k e : Nat} : g.op p = .oor2 n → m + 1 = p + n → Laid g .items (p + 1) m →
      g.op m = .oor1 k → Laid g .alts (m + 1) e → Laid g .alts p e

/-- A compiled expression. -/
structure Compiled (g : Guts) : Prop where
  laid : Laid g .items (g.firststate + 1) g.laststate
  last : g.op g.laststate = .oend
  lt : g.laststate < g.nstates

variable {g : Guts} {kind : Kind} {a b e : Nat}

theorem Laid.le (h : Laid g kind a b) : a ≤ b := by
  induction h <;> omega

theorem Laid.findCh (h : Laid g kind a b) (hk : kind = .alts) (fuel : Nat) (hfuel : b < a + fuel) :
    findCh g fuel a = some b := by
  induction h generalizing fuel with
  | @last p n k hop hin hend =>
    have := hin.le
    obtain ⟨fuel, rfl⟩ : ∃ f, fuel = f + 2 := ⟨fuel - 2, by omega⟩
    simp [Regex.findCh, hop, hend]
  | @more p n m k e hop hm hin hend hrest _ ih =>
    have := hin.le
    obtain ⟨fuel, rfl⟩ : ∃ f, fuel = f + 1 := ⟨fuel - 1, by have := hrest.le; omega⟩
    simp only [Regex.findCh, hop]
    rw [← hm]
    exact ih rfl fuel (by omega)
  | _ => cases hk

theorem Laid.op_alts (h : Laid g kind a b) (hk : kind = .alts) : ∃ n, g.op a = .oor2 n := by
  cases h with
  | last hop => exact ⟨_, hop⟩
  | more hop => exact ⟨_, hop⟩
  | _ => cases hk

theorem Laid.op_end (h : Laid g kind a b) (hk : kind = .alts) : ∃ k, g.op b = .o_ch k := by
  induction h with
  | last _ _ hend => exact ⟨_, hend⟩
  | more _ _ _ _ _ _ ih => exact ih rfl
  | _ => cases hk

theorem moves_alone (h : (g.op a).alone = true) : ∀ t ∈ moves g a, t = a + 1 := by
  unfold moves
  cases hop : g.op a <;> rw [hop] at h <;>
    first
    | exact absurd h Bool.false_ne_true
    | simp

theorem Laid.within (h : Laid g kind a b) (hb : b < g.nstates) (pc : Nat) (hle : a ≤ pc)
    (hlt : pc < b) :
    (∀ t ∈ moves g pc, a ≤ t ∧ t ≤ b) ∧ ∀ n, g.op pc = .o_plus n → a + n ≤ pc := by
  induction h with
  | nil => omega
  | @alone a b hop hrest ih =>
    have := hrest.le
    by_cases hpc : pc = a
    · subst hpc
      refine ⟨fun t ht => ?_, fun n hn => ?_⟩
      · have := moves_alone hop t ht
        omega
      · rw [hn] at hop
        exact absurd hop Bool.false_ne_true
    · have := ih hb (by omega) hlt
      grind
  | @plus a n b hop hin hend hrest ih₁ ih₂ =>
    have := hin.le
    have := hrest.le
    rcases Nat.lt_trichotomy pc (a + n) with hpc | rfl | hpc
    · by_cases ha : pc = a
      · subst ha
        simp [moves, hop]
        omega
      · have := ih₁ (by omega) (by omega) hpc
        grind
    · simp [moves, hend]
      omega
    · have := ih₂ hb (by omega) hlt
      grind
  | @quest a n b hop hin hend hrest ih₁ ih₂ =>
    have := hin.le
    have := hrest.le
    rcases Nat.lt_trichotomy pc (a + n) with hpc | rfl | hpc
    · by_cases ha : pc = a
      · subst ha
        simp [moves, hop]
        omega
      · have := ih₁ (by omega) (by omega) hpc
        grind
    · simp [moves, hend]
      omega
    · have := ih₂ hb (by omega) hlt
      grind
  | @choice a n m k e b hop hm hin hend halts hrest ih₁ ih₂ ih₃ =>
    have := hin.le
    have := halts.le
    have := hrest.le
    by_cases ha : pc = a
    · subst ha
      simp [moves, hop]
      omega
    by_cases h₁ : pc < m
    · have := ih₁ (by omega) (by omega) h₁
      grind
    by_cases hpc : pc = m
    · subst hpc
      simp only [moves, hend, halts.findCh rfl g.nstates (by omega), List.mem_singleton]
      refine ⟨fun t ht => by omega, by simp⟩
    by_cases h₂ : pc < e
    · have := ih₂ (by omega) (by omega) h₂
      grind
    by_cases hpc : pc = e
    · subst hpc
      obtain ⟨j, hj⟩ := halts.op_end rfl
      simp [moves, hj]
      omega
    · have := ih₃ hb (by omega) hlt
      grind
  | @last p n k hop hin hend ih =>
    have := hin.le
    by_cases hp : pc = p
    · subst hp
      simp [moves, hop, hend]
      omega
    · have := ih hb (by omega) hlt
      grind
  | @more p n m k e hop hm hin hend halts ih₁ ih₂ =>
    have := hin.le
    have := halts.le
    by_cases hp : pc = p
    · subst hp
      obtain ⟨j, hj⟩ := halts.op_alts rfl
      rw [hm] at hj
      simp [moves, hop, hj]
      omega
    by_cases h₁ : pc < m
    · have := ih₁ (by omega) (by omega) h₁
      grind
    by_cases hpc : pc = m
    · subst hpc
      simp only [moves, hend, halts.findCh rfl g.nstates (by omega), List.mem_singleton]
      refine ⟨fun t ht => by omega, by simp⟩
    · have := ih₂ hb (by omega) hlt
      grind

theorem Laid.part (h : Laid g kind a b) (hb : b < g.nstates) : Part g a b where
  le := h.le
  lt := hb
  within pc hle hlt := (h.within hb pc hle hlt).1
  loop pc hle hlt := (h.within hb pc hle hlt).2

/-- Every anchor of a part is stepped for. -/
structure Shallow (g : Guts) (start stop : Nat) : Prop where
  bol : Few g start stop .bol g.nbol
  eol : Few g start stop .eol g.neol
  boleol : Few g start stop .boleol (g.nbol + g.neol)
  bow : Few g start stop .bow 1
  eow : Few g start stop .eow 1

section loops

variable {σ τ : Type} {m : Env} {start stop : Nat} {r₁ : Rep σ} {r₂ : Rep τ}
  {V₁ : σ → Prop} {V₂ : τ → Prop} {v fresh₁ : σ} {w fresh₂ : τ}
  (l₁ : r₁.Lawful m.g.nstates V₁) (l₂ : r₂.Lawful m.g.nstates V₂)
  (hpart : Part m.g start stop) (hshallow : Shallow m.g start stop)

theorem Same.isset (h : Same r₁ r₂ V₁ V₂ g start stop v w) (i : Nat) :
    r₁.isset v i = r₂.isset w i := by
  rw [Bool.eq_iff_iff]
  exact h.has i

include l₁ l₂ in
theorem Same.eq {v' : σ} {w' : τ} (h : Same r₁ r₂ V₁ V₂ m.g start stop v w)
    (hv : V₁ v') (hw : V₂ w') (h' : ∀ i, r₁.isset v' i = r₂.isset w' i) :
    r₁.eq v v' = r₂.eq w w' := by
  rw [Bool.eq_iff_iff, l₁.eq v v' h.left hv, l₂.eq w w' h.right hw]
  simp only [h.isset, h']

include l₁ l₂ hpart hshallow in
theorem Same.lineSteps (lastc c : Option Byte) (h : Same r₁ r₂ V₁ V₂ m.g start stop v w) :
    Same r₁ r₂ V₁ V₂ m.g start stop (lineSteps r₁ m.g start stop (m.lineFlag lastc c) v)
      (lineSteps r₂ m.g start stop (m.lineFlag lastc c) w) := by
  unfold Env.lineFlag
  rcases hb : m.startsLine lastc with _ | _ <;> rcases he : m.endsLine c with _ | _
  · exact h
  · exact h.iterate l₁ l₂ hpart hshallow.eol
  · exact h.iterate l₁ l₂ hpart hshallow.bol
  · exact h.iterate l₁ l₂ hpart hshallow.boleol

include l₁ l₂ hpart hshallow in
theorem Same.wordStep (flagch : Option Code) (h : Same r₁ r₂ V₁ V₂ m.g start stop v w) :
    Same r₁ r₂ V₁ V₂ m.g start stop (wordStep r₁ m.g start stop flagch v)
      (wordStep r₂ m.g start stop flagch w) := by
  cases flagch with
  | none => exact h
  | some code =>
    cases code with
    | bow => exact h.iterate l₁ l₂ hpart hshallow.bow
    | eow => exact h.iterate l₁ l₂ hpart hshallow.eow
    | _ => exact h

include l₁ l₂ hpart hshallow in
theorem Same.between (lastc c : Option Byte) (h : Same r₁ r₂ V₁ V₂ m.g start stop v w) :
    Same r₁ r₂ V₁ V₂ m.g start stop (between r₁ m start stop lastc c v)
      (between r₂ m start stop lastc c w) :=
  (h.lineSteps l₁ l₂ hpart hshallow lastc c).wordStep l₁ l₂ hpart hshallow _

include l₁ l₂ hpart hshallow in
theorem fastLoop_eq (hf : Same r₁ r₂ V₁ V₂ m.g start stop fresh₁ fresh₂) (last fuel p : Nat)
    (lastc : Option Byte) (coldp : Nat) (h : Same r₁ r₂ V₁ V₂ m.g start stop v w) :
    fastLoop r₁ m last start stop fresh₁ fuel p lastc v coldp =
      fastLoop r₂ m last start stop fresh₂ fuel p lastc w coldp := by
  induction fuel generalizing p lastc v w coldp with
  | zero => rfl
  | succ fuel ih =>
    have hb := h.between l₁ l₂ hpart hshallow lastc (m.char p)
    have hstep := hb.step l₁ l₂ hpart (.char (m.text p)) hf.left hf.right hf.has
    simp only [fastLoop, h.eq l₁ l₂ hf.left hf.right hf.isset, hb.isset stop]
    rw [ih (p + 1) (m.char p) _ hstep]

include l₁ l₂ hpart hshallow in
theorem fast_eq (first last : Nat) :
    fast r₁ m first last start stop = fast r₂ m first last start stop := by
  have hi := Same.initial l₁ l₂ hpart
  exact fastLoop_eq l₁ l₂ hpart hshallow hi _ _ _ _ _ hi

include l₁ l₂ hpart hshallow in
theorem slowLoop_eq (last fuel p : Nat) (lastc : Option Byte) (matchp : Option Nat)
    (h : Same r₁ r₂ V₁ V₂ m.g start stop v w) :
    slowLoop r₁ m last start stop fuel p lastc v matchp =
      slowLoop r₂ m last start stop fuel p lastc w matchp := by
  induction fuel generalizing p lastc v w matchp with
  | zero => rfl
  | succ fuel ih =>
    have hclear : ∀ i, r₁.isset r₁.clear i = r₂.isset r₂.clear i := fun i =>
      (l₁.clear.2 i).trans (l₂.clear.2 i).symm
    have hb := h.between l₁ l₂ hpart hshallow lastc (m.char p)
    have hstep := hb.step l₁ l₂ hpart (.char (m.text p)) l₁.clear.1 l₂.clear.1 fun i =>
      Bool.eq_iff_iff.1 (hclear i)
    simp only [slowLoop, hb.eq l₁ l₂ l₁.clear.1 l₂.clear.1 hclear, hb.isset stop]
    rw [ih (p + 1) (m.char p) _ hstep]

include l₁ l₂ hpart hshallow in
theorem slow_eq (first last : Nat) :
    slow r₁ m first last start stop = slow r₂ m first last start stop := by
  have hi := Same.initial l₁ l₂ hpart
  exact slowLoop_eq l₁ l₂ hpart hshallow _ _ _ _ _ hi

end loops

section dissect

variable {slow₁ slow₂ : Slow} {ss es ssub esub stopst : Nat}

def Agrees (g : Guts) (slow₁ slow₂ : Slow) : Prop :=
  ∀ a b, Laid g .items a b → b < g.nstates → ∀ s t, slow₁ s t a b = slow₂ s t a b

theorem howLong_eq (h : ∀ s t, slow₁ s t ss es = slow₂ s t ss es)
    (h' : ∀ s t, slow₁ s t es stopst = slow₂ s t es stopst) (stop sp fuel stp : Nat) :
    howLong slow₁ stop ss es stopst sp fuel stp = howLong slow₂ stop ss es stopst sp fuel stp := by
  induction fuel generalizing stp with
  | zero => rfl
  | succ fuel ih => simp only [howLong, h, h', ih]

theorem lastPass_eq (h : ∀ s t, slow₁ s t ssub esub = slow₂ s t ssub esub)
    (rest fuel oldssp ssp : Nat) :
    lastPass slow₁ rest ssub esub fuel oldssp ssp =
      lastPass slow₂ rest ssub esub fuel oldssp ssp := by
  induction fuel generalizing oldssp ssp with
  | zero => rfl
  | succ fuel ih => simp only [lastPass, h, ih]

theorem nextBranch_eq_none (h : ∀ n, g.op (esub + 1) ≠ .oor2 n) : nextBranch g esub = none := by
  unfold nextBranch
  cases hop : g.op (esub + 1) with
  | oor2 n => exact absurd hop (h n)
  | _ => rfl

/-- A branch of the choice that ends at `e`. -/
structure Branch (g : Guts) (e ssub esub : Nat) : Prop where
  laid : Laid g .items ssub esub
  op_ne : ∀ n, g.op esub ≠ .oor2 n
  next : esub = e ∨ Laid g .alts (esub + 1) e

theorem nextBranch_laid (h : Laid g .alts (esub + 1) e) :
    ∃ ssub' esub', nextBranch g esub = some (ssub', esub') ∧ Branch g e ssub' esub' := by
  generalize hp : esub + 1 = p at h
  cases h with
  | @last _ n k hop hin hend =>
    subst hp
    exact ⟨esub + 2, esub + 1 + n, by simp only [nextBranch, hop, hend], hin, by simp [hend],
      .inl rfl⟩
  | @more _ n m k _ hop hm hin hend halts =>
    subst hp
    obtain ⟨j, hj⟩ := halts.op_alts rfl
    obtain rfl : m = esub + n := by omega
    rw [hm] at hj
    exact ⟨esub + 2, esub + n, by simp only [nextBranch, hop, hj], hin, by simp [hend], .inr halts⟩

theorem firstBranch_eq (h : Agrees g slow₁ slow₂) (he : e < g.nstates)
    (hnext : ∀ n, g.op (e + 1) ≠ .oor2 n) (sp rest fuel ssub esub : Nat)
    (hb : Branch g e ssub esub) :
    firstBranch slow₁ g sp rest fuel ssub esub = firstBranch slow₂ g sp rest fuel ssub esub ∧
      ∀ r, firstBranch slow₂ g sp rest fuel ssub esub = some r → Branch g e r.1 r.2 := by
  induction fuel generalizing ssub esub with
  | zero => exact ⟨rfl, by simp [firstBranch]⟩
  | succ fuel ih =>
    have hlt : esub < g.nstates := by
      rcases hb.next with rfl | halts
      · exact he
      · have := halts.le
        omega
    simp only [firstBranch, h ssub esub hb.laid hlt]
    by_cases hhit : slow₂ sp rest ssub esub = some rest
    · rw [if_pos hhit, if_pos hhit]
      refine ⟨rfl, ?_⟩
      rintro _ ⟨⟩
      exact hb
    rw [if_neg hhit, if_neg hhit]
    rcases hb.next with rfl | halts
    · -- the last branch missed
      simp [nextBranch_eq_none hnext]
    · obtain ⟨ssub', esub', hnb, hb'⟩ := nextBranch_laid halts
      simp only [hnb]
      exact ih ssub' esub' hb'

theorem Laid.op_ne (h : Laid g .items a b) (hb : ∀ n, g.op b ≠ .oor2 n) (n : Nat) :
    g.op a ≠ .oor2 n := by
  intro hn
  cases h with
  | nil => exact hb n hn
  | alone hop =>
    rw [hn] at hop
    exact absurd hop Bool.false_ne_true
  | plus hop | quest hop | choice hop => simp [hn] at hop

section part

variable {inner₁ inner₂ : Nat → Nat → Nat → Nat → Pmatch → Option Pmatch}

theorem dissectPart_eq (h : Agrees g slow₁ slow₂) (hlaid : Laid g .items ss stopst)
    (hlt : stopst < g.nstates) (hne : ∀ n, g.op stopst ≠ .oor2 n) (hss : ss < stopst)
    (hinner : ∀ stop ss stopst sp pm, Laid g .items ss stopst → stopst < g.nstates →
      (∀ n, g.op stopst ≠ .oor2 n) → inner₁ stop ss stopst sp pm = inner₂ stop ss stopst sp pm) :
    ∃ es, partEnd g ss = some es ∧ Laid g .items es stopst ∧ ∀ stop sp pm,
      dissectPart slow₁ g inner₁ stop ss es stopst sp pm =
        dissectPart slow₂ g inner₂ stop ss es stopst sp pm := by
  cases hlaid with
  | nil => omega
  | alone hop hrest =>
    refine ⟨ss + 1, ?_, hrest, fun stop sp pm => ?_⟩
    · cases hop' : g.op ss <;> rw [hop'] at hop <;>
        first
        | exact absurd hop Bool.false_ne_true
        | simp only [partEnd, hop']
    · cases hop' : g.op ss <;> rw [hop'] at hop <;>
        first
        | exact absurd hop Bool.false_ne_true
        | simp only [dissectPart, hop']
  | @plus _ n _ hop hin hend hrest =>
    have := hrest.le
    have hall := h _ _ (.plus hop hin hend (.nil _)) (by omega)
    have hbody := fun stop sp pm => hinner stop _ _ sp pm hin (by omega) (by simp [hend])
    refine ⟨ss + n + 1, by simp only [partEnd, hop], hrest, fun stop sp pm => ?_⟩
    simp only [dissectPart, hop, Nat.add_sub_cancel, howLong_eq hall (h _ _ hrest hlt),
      lastPass_eq (h _ _ hin (by omega)), hbody]
  | @quest _ n _ hop hin hend hrest =>
    have := hrest.le
    have hall := h _ _ (.quest hop hin hend (.nil _)) (by omega)
    have hbody := fun stop sp pm => hinner stop _ _ sp pm hin (by omega) (by simp [hend])
    refine ⟨ss + n + 1, by simp only [partEnd, hop], hrest, fun stop sp pm => ?_⟩
    simp only [dissectPart, hop, Nat.add_sub_cancel, howLong_eq hall (h _ _ hrest hlt),
      h _ _ hin (by omega), hbody]
  | @choice _ n m k e _ hop hm hin hend halts hrest =>
    have := hrest.le
    have := halts.le
    have hall := h _ _ (.choice hop hm hin hend halts (.nil _)) (by omega)
    obtain rfl : m = ss + n - 1 := by omega
    refine ⟨e + 1, ?_, hrest, fun stop sp pm => ?_⟩
    · simp only [partEnd, hop]
      rw [← hm, halts.findCh rfl g.nstates (by omega)]
      rfl
    · simp only [dissectPart, hop, howLong_eq hall (h _ _ hrest hlt), Option.bind_eq_bind]
      congr 1
      funext rest
      have hfb := firstBranch_eq h (by omega) (hrest.op_ne hne) sp rest g.nstates (ss + 1)
        (ss + n - 1) ⟨hin, by simp [hend], .inr halts⟩
      rw [hfb.1]
      cases hr : firstBranch slow₂ g sp rest g.nstates (ss + 1) (ss + n - 1) with
      | none => rfl
      | some r =>
        have hb := hfb.2 r hr
        have hlt' : r.2 < g.nstates := by
          rcases hb.next with hr | halts'
          · omega
          · have := halts'.le
            omega
        simp only [Option.bind_some, hinner _ _ _ _ _ hb.laid hlt' hb.op_ne]

end part

theorem dissect_eq (h : Agrees g slow₁ slow₂) (fuel stop ss stopst sp : Nat) (pm : Pmatch)
    (hlaid : Laid g .items ss stopst) (hlt : stopst < g.nstates)
    (hne : ∀ n, g.op stopst ≠ .oor2 n) :
    dissect slow₁ g fuel stop ss stopst sp pm = dissect slow₂ g fuel stop ss stopst sp pm := by
  induction fuel generalizing stop ss stopst sp pm with
  | zero => rfl
  | succ fuel ih =>
    simp only [dissect]
    by_cases hle : stopst ≤ ss
    · rw [if_pos hle, if_pos hle]
    rw [if_neg hle, if_neg hle]
    obtain ⟨es, hes, hrest, hpart⟩ := dissectPart_eq h hlaid hlt hne (by omega) ih
    simp only [hes, Option.bind_eq_bind, Option.bind_some, hpart, ih _ _ _ _ _ hrest hlt hne]

theorem whereStarts_eq (h : ∀ s t, slow₁ s t a b = slow₂ s t a b) (stop fuel coldp : Nat) :
    whereStarts slow₁ stop a b fuel coldp = whereStarts slow₂ stop a b fuel coldp := by
  induction fuel generalizing coldp with
  | zero => rfl
  | succ fuel ih => simp only [whereStarts, h, ih]

theorem backOff_eq {m : Env} (h : ∀ s t, slow₁ s t a b = slow₂ s t a b)
    (turns coldp fuel endp : Nat) (s : Saved) :
    backOff slow₁ m turns a b coldp fuel endp s = backOff slow₂ m turns a b coldp fuel endp s := by
  induction fuel generalizing endp s with
  | zero => rfl
  | succ fuel ih => simp only [backOff, h, ih]

theorem matchLoop_eq {m : Env} {fast₁ fast₂ : Nat → Nat → Nat → Nat → Nat × Option Nat}
    (hg : Compiled m.g) (h : Agrees m.g slow₁ slow₂)
    (hfast : ∀ s t, fast₁ s t (m.g.firststate + 1) m.g.laststate =
      fast₂ s t (m.g.firststate + 1) m.g.laststate)
    (backr : Bool) (nmatch stop fuel start : Nat) (lastpos : Nat → Nat) :
    matchLoop fast₁ slow₁ m backr nmatch stop fuel start lastpos =
      matchLoop fast₂ slow₂ m backr nmatch stop fuel start lastpos := by
  have hslow := h _ _ hg.laid hg.lt
  have hne : ∀ n, m.g.op m.g.laststate ≠ .oor2 n := by simp [hg.last]
  induction fuel generalizing start lastpos with
  | zero => rfl
  | succ fuel ih =>
    simp only [matchLoop, hfast, whereStarts_eq hslow, backOff_eq hslow, ih,
      dissect_eq h _ _ _ _ _ _ hg.laid hg.lt hne]

end dissect

/-- Over both representations the same status and the same `pmatch`, for an expression whose
anchors are all stepped for in each of its parts. -/
theorem matchers_agree (g : Guts) (hg : Compiled g) (hfit : g.nstates ≤ 32)
    (hshallow : ∀ start stop, Laid g .items start stop → stop < g.nstates → Shallow g start stop)
    (c : Call) : smatcher g c = lmatcher g c := by
  have l₁ := small_lawful hfit
  have l₂ := large_lawful g.nstates
  unfold smatcher lmatcher matcher
  simp only
  rw [matchLoop_eq (show Compiled (c.env g).g from hg)]
  · intro a b hlaid hlt s t
    exact slow_eq (m := c.env g) l₁ l₂ (hlaid.part hlt) (hshallow a b hlaid hlt) s t
  · intro s t
    exact fast_eq (m := c.env g) l₁ l₂ (hg.laid.part hg.lt) (hshallow _ _ hg.laid hg.lt) s t

/-- `^(a|b)+c`. -/
def anchored : Guts where
  strip := [.oend, .obol, .oplus_ 9, .olparen 1, .och_ 3, .ochar 97, .oor1 2, .oor2 2, .ochar 98,
    .o_ch 3, .orparen 1, .o_plus 9, .ochar 99, .oend]
  sets _ _ := false
  nosub := false
  newline := false
  firststate := 0
  laststate := 13
  nbol := 1
  neol := 0
  must := some [99]
  nsub := 1
  backrefs := false
  nplus := 1

theorem compiled_anchored : Compiled anchored where
  laid := by
    have halts : Laid anchored .alts 7 9 :=
      .last (n := 2) rfl (.alone rfl (.nil _)) (k := 3) rfl
    have hloop : Laid anchored .items 3 11 :=
      .alone rfl (.choice (n := 3) (m := 6) rfl rfl (.alone rfl (.nil _)) (k := 2) rfl halts
        (.alone rfl (.nil _)))
    exact .alone rfl (.plus (n := 9) rfl hloop rfl (.alone rfl (.nil _)))
  last := rfl
  lt := by decide

theorem shallow_anchored (start stop : Nat) (hlt : stop < anchored.nstates) :
    Shallow anchored start stop := by
  have hpass : ∀ ch ∈ [Code.bol, .eol, .boleol, .bow, .eow], ∀ s < 14,
      (anchored.op s).passes anchored ch = true → s = 1 ∧ (ch = .bol ∨ ch = .boleol) := by
    decide
  have hlt : stop < 14 := hlt
  have hnone : ∀ ch ∈ [Code.eol, .bow, .eow], ∀ s r, ¬ Pass anchored start stop ch s r := by
    rintro ch hch s r ⟨-, hs, hp, -⟩
    have := hpass ch (by simp at hch ⊢; tauto) s (by omega) hp
    simp at hch
    grind
  have hone : ∀ ch ∈ [Code.bol, .boleol], Few anchored start stop ch 1 := by
    intro ch hch
    apply few_one
    rintro s s' r r' ⟨-, hs, hp, -⟩ ⟨-, hs', hp', -⟩
    have hmem : ch ∈ [Code.bol, .eol, .boleol, .bow, .eow] := by simp at hch ⊢; tauto
    rw [(hpass ch hmem s (by omega) hp).1, (hpass ch hmem s' (by omega) hp').1]
  exact ⟨hone _ (by simp), few_none (hnone _ (by simp)) _, hone _ (by simp),
    few_none (hnone _ (by simp)) _, few_none (hnone _ (by simp)) _⟩

/-- `regexec` on `abc` with two entries of `pmatch`. -/
def abc : Call where
  text p := [97, 98, 99].getD p 0
  len := 3
  nmatch := 2
  startend := none
  notbol := false
  noteol := false
  backr := false

theorem matchers_agree_anchored :
    smatcher anchored abc = some (.ok, [⟨0, 3⟩, ⟨1, 2⟩]) ∧
      lmatcher anchored abc = some (.ok, [⟨0, 3⟩, ⟨1, 2⟩]) := by
  have h := matchers_agree anchored compiled_anchored (by decide)
    (fun start stop _ hlt => shallow_anchored start stop hlt) abc
  have hs : smatcher anchored abc = some (.ok, [⟨0, 3⟩, ⟨1, 2⟩]) := by decide +kernel
  exact ⟨hs, h.symm.trans hs⟩

/-- `[[:<:]][[:<:]]a`. -/
def twice : Guts where
  strip := [.oend, .obow, .obow, .ochar 97, .oend]
  sets _ _ := false
  nosub := false
  newline := false
  firststate := 0
  laststate := 4
  nbol := 0
  neol := 0
  must := some [97]
  nsub := 0
  backrefs := false
  nplus := 0

/-- Two word boundaries in a row: a `long` passes one of them, an array both. -/
theorem matchers_disagree :
    Compiled twice ∧ twice.nstates ≤ 32 ∧
      smatcher twice { abc with len := 1, nmatch := 1 } = some (.nomatch, []) ∧
      lmatcher twice { abc with len := 1, nmatch := 1 } = some (.ok, [⟨0, 1⟩]) := by
  refine ⟨⟨.alone rfl (.alone rfl (.alone rfl (.nil _))), rfl, by decide⟩, by decide, ?_, ?_⟩
  · decide +kernel
  · decide +kernel

end Bsdi.Regex
