import Bsdi.Gen.Commands

/-!
# Actions

`setmode` reads the permissions of an action one by one and puts off the commands for them. The
invariant of that loop says what the commands so far have done and what is still pending.
-/

namespace Bsdi.Setmode

variable {stale : Nat → Bitcmd} {umask omode m m' : Mode} {a : Action} {f : Filled}

/-! ### An action -/

/-- An action is read as far as `perms`: the commands before have put the bits `done` into effect,
and what is pending makes up for the rest. -/
structure Pending (umask omode m : Mode) (a : Action) (perms : List Char) (l : Locals)
    (done : Mode) : Prop where
  op : l.op = a.op
  who : l.who = whoMask a.who ∨
    't' ∈ perms ∧ l.who = whoMask a.who ||| S_ISTXT ∧ (done ||| l.perm) &&& S_ISTXT = S_ISTXT
  perm : bitsFor l.who (~~~umask) &&& l.perm = a.scope umask &&& l.perm
  permLow : ∃ v, l.perm &&& 0o777#16 = spread v
  doneLow : ∃ v, done &&& 0o777#16 = spread v
  alone : a.who = [] → 't' ∈ a.perms → l.perm &&& S_ISTXT = l.perm
  permX : l.permXbits = 0#16 ∨ l.permXbits = execBits ∧ 'X' ∈ perms
  bits : (done ||| l.perm ||| if XApplies omode then l.permXbits else 0#16) &&& a.scope umask =
    a.bits omode m perms &&& a.scope umask

def Action.Named (a : Action) : Prop := ∀ c ∈ a.who, isWho c = true

variable {perms : List Char} {l l' : Locals} {done : Mode} {c : Char}

theorem or_sticky_ne_zero (w : Mode) : w ||| S_ISTXT ≠ 0#16 := by
  intro hzero
  have hbit := congrArg (·.getLsbD 9) hzero
  simp [S_ISTXT] at hbit

theorem Pending.agrees (h : Pending umask omode m a perms l done) (hnamed : a.Named)
    (ht : a.who = [] → 't' ∉ perms) :
    bitsFor l.who (~~~umask) &&& ~~~S_ISTXT = a.scope umask &&& ~~~S_ISTXT := by
  by_cases hwho : a.who = []
  · rcases h.who with heq | ⟨hmem, -⟩
    · rw [heq, Action.scope, if_pos hwho, hwho]
      rfl
    · exact absurd hmem (ht hwho)
  · have hne := whoMask_ne_zero hnamed hwho
    rw [Action.scope, if_neg hwho]
    rcases h.who with heq | ⟨-, heq, -⟩
    · rw [heq, bitsFor, if_pos hne]
      ext i hi
      simp only [BitVec.getElem_and, BitVec.getElem_or, BitVec.getElem_not]
      grind
    · rw [heq, bitsFor, if_pos (or_sticky_ne_zero _)]

theorem bits_append :
    a.bits omode m (perms ++ [c]) = a.bits omode m perms ||| a.permBits omode m c := by
  simp [Action.bits]

theorem Action.Plain.not_sticky (hplain : a.Plain umask omode m) (hsub : ∀ d ∈ perms, d ∈ a.perms)
    (hc : c ∈ a.perms) (hne : c ≠ 't') : a.who = [] → 't' ∉ perms := fun hwho hmem =>
  hne (((hplain.nobody hwho).2 (hsub 't' hmem)).2.1 c hc)

theorem Pending.letter_bits (h : Pending umask omode m a perms l done) (hnamed : a.Named)
    (hplain : a.Plain umask omode m) (hsub : ∀ d ∈ perms, d ∈ a.perms) (hc : c ∈ a.perms)
      (hne : c ≠ 't')
    {b : Mode} (hb : b &&& S_ISTXT = 0#16) (hlow : ∃ v, b &&& 0o777#16 = spread v)
    (hspec : b &&& a.scope umask = a.permBits omode m c &&& a.scope umask) :
    Pending umask omode m a (perms ++ [c]) { l with perm := l.perm ||| b } done := by
  have hagree := h.agrees hnamed (hplain.not_sticky hsub hc hne)
  refine ⟨h.op, ?_, ?_, ?_, h.doneLow, fun hwho ht => ?_, ?_, ?_⟩
  · rcases h.who with heq | ⟨hmem, heq, hdone⟩
    · exact .inl heq
    · refine .inr ⟨by simp [hmem], heq, ?_⟩
      dsimp only
      grind
  · dsimp only
    have hperm := h.perm
    ext i hi
    have h1 := congrArg (·[i]) hagree
    have h2 := congrArg (·[i]) hperm
    have h3 := congrArg (·[i]) hb
    simp only [BitVec.getElem_and, BitVec.getElem_or, BitVec.getElem_not, BitVec.getElem_zero]
      at h1 h2 h3 ⊢
    grind
  · obtain ⟨v, hv⟩ := h.permLow
    obtain ⟨w, hw⟩ := hlow
    exact ⟨v ||| w, by rw [spread_or, ← hv, ← hw]; exact BitVec.and_or_distrib_right⟩
  · exact absurd (((hplain.nobody hwho).2 ht).2.1 c hc) hne
  · rcases h.permX with heq | ⟨heq, hmem⟩
    · exact .inl heq
    · exact .inr ⟨heq, by simp [hmem]⟩
  · rw [bits_append]
    have hbits := h.bits
    dsimp only
    generalize (if XApplies omode then l.permXbits else 0#16) = x at *
    ext i hi
    have h1 := congrArg (·[i]) hbits
    have h2 := congrArg (·[i]) hspec
    simp only [BitVec.getElem_and, BitVec.getElem_or] at h1 h2 ⊢
    grind

theorem Pending.letter_t (h : Pending umask omode m a perms l done) (hplain : a.Plain umask omode m)
    (hc : 't' ∈ a.perms) :
    Pending umask omode m a (perms ++ ['t'])
      { l with who := l.who ||| S_ISTXT, perm := l.perm ||| S_ISTXT } done := by
  have hspec : a.permBits omode m 't' = S_ISTXT := by
    have hothers : a.othersOnly = false := by
      by_contra hne
      exact hplain.others (by simpa using hne) hc
    simp [Action.permBits, hothers]
  have hwho : l.who ||| S_ISTXT = whoMask a.who ||| S_ISTXT := by
    rcases h.who with heq | ⟨-, heq, -⟩
    · rw [heq]
    · rw [heq, BitVec.or_assoc, BitVec.or_self]
  have hne : whoMask a.who ||| S_ISTXT ≠ 0#16 := or_sticky_ne_zero _
  refine ⟨h.op, .inr ⟨by simp, hwho, ?_⟩, ?_, ?_, h.doneLow, fun hwho ht => ?_, ?_, ?_⟩
  · dsimp only
    ext i hi
    simp only [BitVec.getElem_and, BitVec.getElem_or]
    grind
  · dsimp only
    rw [hwho, bitsFor, if_pos hne, Action.scope]
    split
    · -- nobody is named, so that all that is pending is the sticky bit
      rename_i hnil
      have halone := h.alone hnil hc
      have humask := (((hplain.nobody hnil).2 hc).2).2
      rw [hnil]
      ext i hi
      have h1 := congrArg (·[i]) halone
      have h2 := congrArg (·[i]) humask
      simp only [whoMask, List.foldl_nil, BitVec.getElem_and, BitVec.getElem_or, BitVec.getElem_not,
        BitVec.getElem_zero] at h1 h2 ⊢
      grind
    · rfl
  · obtain ⟨v, hv⟩ := h.permLow
    refine ⟨v, ?_⟩
    rw [← hv, BitVec.and_or_distrib_right]
    exact BitVec.or_zero
  · rw [BitVec.and_or_distrib_right, h.alone hwho ht, BitVec.and_self]
  · rcases h.permX with heq | ⟨heq, hmem⟩
    · exact .inl heq
    · exact .inr ⟨heq, by simp [hmem]⟩
  · rw [bits_append, hspec]
    have hbits := h.bits
    dsimp only
    generalize (if XApplies omode then l.permXbits else 0#16) = x at *
    ext i hi
    have h1 := congrArg (·[i]) hbits
    simp only [BitVec.getElem_and, BitVec.getElem_or] at h1 ⊢
    grind

theorem Pending.letter_X (h : Pending umask omode m a perms l done) (hplain : a.Plain umask omode m)
    (hc : 'X' ∈ a.perms) :
    Pending umask omode m a (perms ++ ['X']) { l with permXbits := execBits } done := by
  refine ⟨h.op, ?_, h.perm, h.permLow, h.doneLow, h.alone, .inr ⟨rfl, by simp⟩, ?_⟩
  · rcases h.who with heq | ⟨hmem, heq⟩
    · exact .inl heq
    · exact .inr ⟨by simp [hmem], heq⟩
  · have hspec : a.permBits omode m 'X' = if XApplies omode then execBits else 0#16 := by
      simp [Action.permBits, hplain.searches hc]
    rw [bits_append, hspec]
    have hbits := h.bits
    dsimp only
    ext i hi
    have h1 := congrArg (·[i]) hbits
    rcases h.permX with heq | ⟨heq, -⟩ <;> rw [heq] at h1 <;> split_ifs at h1 ⊢ <;>
      simp only [BitVec.getElem_and, BitVec.getElem_or, BitVec.getElem_zero] at h1 ⊢ <;> grind

theorem setid_scope (hwho : a.who ≠ []) (h : (S_ISUID ||| S_ISGID) &&& whoMask a.who = 0#16) :
    (S_ISUID ||| S_ISGID) &&& a.scope umask = 0#16 := by
  rw [Action.scope, if_neg hwho, BitVec.and_or_distrib_left, h]
  rfl

theorem Pending.letter (h : Pending umask omode m a perms l done) (hplain : a.Plain umask omode m)
    (hnamed : a.Named) (hsub : ∀ d ∈ perms, d ∈ a.perms) (hc : c ∈ a.perms)
      (hcopy : isCopy c = false)
    {mask : Mode} (hletter : l.letter stale mask c = some l') :
    Pending umask omode m a (perms ++ [c]) l' done ∧ l'.out = l.out ∧
      l'.equalopdone = l.equalopdone := by
  have hlow : (∃ v, readBits &&& 0o777#16 = spread v) ∧ (∃ v, writeBits &&& 0o777#16 = spread v) ∧
      (∃ v, execBits &&& 0o777#16 = spread v) ∧
      ∃ v, (S_ISUID ||| S_ISGID) &&& 0o777#16 = spread v :=
    ⟨⟨4#3, rfl⟩, ⟨2#3, rfl⟩, ⟨1#3, rfl⟩, ⟨0#3, rfl⟩⟩
  unfold Locals.letter at hletter
  split_ifs at hletter with hr hs hset ht hw hX hx hugo
  · obtain rfl := Option.some.inj hletter
    subst hr
    exact ⟨h.letter_bits hnamed hplain hsub hc (by decide) (by decide) hlow.1 rfl, rfl, rfl⟩
  · obtain rfl := Option.some.inj hletter
    subst hs
    refine ⟨h.letter_bits hnamed hplain hsub hc (by decide) (by decide) hlow.2.2.2 ?_, rfl, rfl⟩
    by_cases hothers : a.othersOnly = true
    · have hwho : a.who ≠ [] := fun hnil => (hplain.nobody hnil).1 hc
      rw [setid_scope hwho (othersOnly_setid hothers)]
      simp [Action.permBits, hothers]
    · simp [Action.permBits, hothers]
  · obtain rfl := Option.some.inj hletter
    subst hs
    have hwho : a.who ≠ [] := fun hnil => (hplain.nobody hnil).1 hc
    have hnone : (S_ISUID ||| S_ISGID) &&& whoMask a.who = 0#16 := by
      have hwho' : whoMask a.who &&& ~~~S_IRWXO = 0#16 := by
        rw [not_not] at hset
        rcases h.who with heq | ⟨-, heq, -⟩
        · rwa [heq] at hset
        · rw [heq] at hset
          have hbit := congrArg (·.getLsbD 9) hset
          simp [S_ISTXT, S_IRWXO] at hbit
      have hsplit : S_ISUID ||| S_ISGID = (S_ISUID ||| S_ISGID) &&& ~~~S_IRWXO := by decide
      rw [hsplit, BitVec.and_assoc, BitVec.and_comm (~~~S_IRWXO), hwho', BitVec.and_zero]
    have hkeep := h.letter_bits hnamed hplain hsub hc (by decide) (BitVec.zero_and)
      ⟨0#3, by decide⟩ (by
      rw [BitVec.zero_and, Action.permBits]
      by_cases hothers : a.othersOnly = true
      · simp [hothers]
      · simp [hothers, setid_scope hwho hnone])
    rw [BitVec.or_zero] at hkeep
    exact ⟨hkeep, rfl, rfl⟩
  · obtain rfl := Option.some.inj hletter
    subst ht
    exact ⟨h.letter_t hplain hc, rfl, rfl⟩
  · obtain rfl := Option.some.inj hletter
    subst hw
    exact ⟨h.letter_bits hnamed hplain hsub hc (by decide) (by decide) hlow.2.1 rfl, rfl, rfl⟩
  · obtain rfl := Option.some.inj hletter
    subst hX
    exact ⟨h.letter_X hplain hc, rfl, rfl⟩
  · obtain rfl := Option.some.inj hletter
    subst hx
    exact ⟨h.letter_bits hnamed hplain hsub hc (by decide) (by decide) hlow.2.2.1 rfl, rfl, rfl⟩
  · rw [isCopy_iff.2 hugo] at hcopy
    cases hcopy

/-- What `+` and `-` do with bits. -/
def operate (op : Char) (m b : Mode) : Mode := if op = '+' then m ||| b else m &&& ~~~b

theorem operate_operate (op : Char) (m x y s : Mode) :
    operate op (operate op m (x &&& s)) (y &&& s) = operate op m ((x ||| y) &&& s) := by
  unfold operate
  split <;> ext i hi <;> simp only [BitVec.getElem_and, BitVec.getElem_or, BitVec.getElem_not] <;>
    grind

theorem Ran.addcmd_operate (h : Ran omode f m) (hroom : f.set + 2 < f.mem.length) {op : Char}
    (hop : op = '+' ∨ op = '-') (who perm mask : Mode) :
    Ran omode (addcmd f op who perm mask) (operate op m (bitsFor who mask &&& perm)) := by
  rcases hop with rfl | rfl
  · exact h.addcmd_plus hroom who perm mask
  · exact h.addcmd_minus hroom who perm mask

theorem Pending.flush (h : Pending umask omode m a perms l done) (hop : a.op = '+' ∨ a.op = '-')
    (hran : Ran omode l.out (operate a.op m (done &&& a.scope umask))) (stale : Nat → Bitcmd) :
    let l' := if l.perm ≠ 0#16 then l.addPerm stale (~~~umask) else l
    Pending umask omode m a perms l' (done ||| l.perm) ∧
      Ran omode l'.out (operate a.op m ((done ||| l.perm) &&& a.scope umask)) ∧ l'.perm = 0#16 := by
  by_cases hzero : l.perm = 0#16
  · rw [if_neg (by simp [hzero]), hzero, BitVec.or_zero]
    exact ⟨h, hran, hzero⟩
  · have hlow : 0#16 &&& 0o777#16 = spread 0#3 := by decide
    rw [if_pos hzero]
    refine ⟨⟨h.op, ?_, ?_, ⟨0#3, hlow⟩, ?_, fun _ _ => ?_, h.permX, ?_⟩, ?_, rfl⟩
    · simpa [Locals.addPerm] using h.who
    · simp [Locals.addPerm]
    · obtain ⟨v, hv⟩ := h.doneLow
      obtain ⟨w, hw⟩ := h.permLow
      exact ⟨v ||| w, by rw [spread_or, ← hv, ← hw]; exact BitVec.and_or_distrib_right⟩
    · simp [Locals.addPerm]
    · simpa [Locals.addPerm] using h.bits
    · obtain ⟨hgrow, hroom⟩ := hran.grow stale
      have hcmd := hgrow.addcmd_operate hroom hop l.who l.perm (~~~umask)
      rw [h.perm, BitVec.and_comm (a.scope umask), operate_operate] at hcmd
      rw [← h.op] at hcmd
      simpa only [Locals.addPerm, h.op] using hcmd

theorem Pending.flushX (h : Pending umask omode m a perms l done) (hop : a.op = '+' ∨ a.op = '-')
    (hnamed : a.Named) (hplain : a.Plain umask omode m) (hsub : ∀ d ∈ perms, d ∈ a.perms)
    (hran : Ran omode l.out (operate a.op m (done &&& a.scope umask))) (stale : Nat → Bitcmd) :
    let l' := if l.permXbits ≠ 0#16 then l.addX stale (~~~umask) else l
    let x := if XApplies omode then l.permXbits else 0#16
    Pending umask omode m a perms l' (done ||| x) ∧
      Ran omode l'.out (operate a.op m ((done ||| x) &&& a.scope umask)) := by
  by_cases hzero : l.permXbits = 0#16
  · rw [if_neg (by simp [hzero])]
    simp only [hzero, ite_self, BitVec.or_zero]
    exact ⟨h, hran⟩
  · obtain ⟨heq, hmem⟩ := h.permX.resolve_left hzero
    have hX := hsub 'X' hmem
    have hagree := h.agrees hnamed (hplain.not_sticky hsub hX (by decide))
    have hexec : bitsFor l.who (~~~umask) &&& execBits = execBits &&& a.scope umask := by
      have hsplit : execBits = ~~~S_ISTXT &&& execBits := by decide
      rw [hsplit, ← BitVec.and_assoc, hagree, BitVec.and_assoc, BitVec.and_comm]
    rw [if_pos hzero]
    refine ⟨⟨h.op, ?_, h.perm, h.permLow, ?_, h.alone, .inl rfl, ?_⟩, ?_⟩
    · rcases h.who with hwho | ⟨ht, hwho, hdone⟩
      · exact .inl hwho
      · refine .inr ⟨ht, hwho, ?_⟩
        simp only [Locals.addX]
        ext i hi
        have h1 := congrArg (·[i]) hdone
        simp only [BitVec.getElem_and, BitVec.getElem_or] at h1 ⊢
        grind
    · obtain ⟨v, hv⟩ := h.doneLow
      rw [heq]
      split
      · exact ⟨v ||| 1#3, by rw [spread_or, ← hv]; exact BitVec.and_or_distrib_right⟩
      · exact ⟨v, by rw [BitVec.or_zero, hv]⟩
    · have hbits := h.bits
      simp only [Locals.addX, ite_self, BitVec.or_zero]
      rw [← hbits]
      congr 1
      rw [BitVec.or_assoc, BitVec.or_assoc, BitVec.or_comm l.perm]
    · obtain ⟨hgrow, hroom⟩ := hran.grow stale
      have hcmd := hgrow.addcmd_X hroom l.who l.permXbits (~~~umask)
      rw [heq] at hcmd ⊢
      simp only [Locals.addX, heq]
      rcases hop with hop | hop
      · split_ifs at hcmd ⊢ with hx
        · rw [hexec] at hcmd
          rw [← operate_operate]
          simpa only [operate, hop, if_true] using hcmd
        · simpa using hcmd
      · -- `X` is ignored with `-` as the file is not executable
        have hx : ¬ XApplies omode := fun hx => by
          have := ((hplain.searches hX).1 hx).1
          rw [hop] at this
          exact absurd this (by decide)
        rw [if_neg hx] at hcmd ⊢
        simpa using hcmd

theorem Pending.copyMask_spread (h : Pending umask omode m a perms l done) (hnamed : a.Named)
    (ht : a.who = [] → 't' ∉ perms) (v : BitVec 3) :
    spread v &&& copyMask l.who (~~~umask) = spread v &&& a.scope umask := by
  have hlow := spread_low v
  by_cases hwho : a.who = []
  · rcases h.who with heq | ⟨hmem, -⟩
    · have hzero : ¬ l.who ≠ 0#16 := by simp [heq, hwho, whoMask]
      rw [copyMask, if_neg hzero, Action.scope, if_pos hwho, ← BitVec.and_assoc, hlow]
    · exact absurd hmem (ht hwho)
  · have hmask := copyMask_whoMask a.who (~~~umask) (whoMask_ne_zero hnamed hwho)
    have heq : copyMask l.who (~~~umask) = whoMask a.who &&& 0o777#16 := by
      rcases h.who with heq | ⟨-, heq, -⟩
      · rw [heq, hmask.1]
      · rw [heq, hmask.2]
    have hsticky : spread v &&& S_ISTXT = 0#16 := by
      revert v
      decide
    rw [heq, Action.scope, if_neg hwho, BitVec.and_or_distrib_left, hsticky, BitVec.or_zero,
      BitVec.and_comm (whoMask a.who), ← BitVec.and_assoc, hlow]

theorem permBits_copy (hc : isCopy c = true) : a.permBits omode m c = spread (classBits m c) := by
  rcases isCopy_iff.1 hc with rfl | rfl | rfl <;> simp [Action.permBits]

theorem ne_of_isCopy (hc : isCopy c = true) : c ≠ 't' := by
  rintro rfl
  exact absurd hc (by decide)

theorem Pending.copied (h : Pending umask omode m a perms l done) (hop : a.op = '+' ∨ a.op = '-')
    (hnamed : a.Named) (hplain : a.Plain umask omode m) (hsub : ∀ d ∈ perms, d ∈ a.perms)
    (hc : c ∈ a.perms) (hcopy : isCopy c = true)
    (hran : Ran omode l.out (operate a.op m (done &&& a.scope umask))) (stale : Nat → Bitcmd) :
    let l' := { l with out := addcopy (l.out.grow stale) c l.who l.op (~~~umask) }
    Pending umask omode m a (perms ++ [c]) l' (done ||| spread (classBits m c)) ∧
      Ran omode l'.out (operate a.op m ((done ||| spread (classBits m c)) &&& a.scope umask)) := by
  obtain ⟨v, hv⟩ := h.doneLow
  refine ⟨⟨h.op, ?_, h.perm, h.permLow, ⟨v ||| classBits m c, ?_⟩, h.alone, ?_, ?_⟩, ?_⟩
  · rcases h.who with hwho | ⟨ht, hwho, hdone⟩
    · exact .inl hwho
    · refine .inr ⟨by simp [ht], hwho, ?_⟩
      ext i hi
      have h1 := congrArg (·[i]) hdone
      simp only [BitVec.getElem_and, BitVec.getElem_or] at h1 ⊢
      grind
  · rw [spread_or, ← hv, BitVec.and_or_distrib_right, spread_low]
  · rcases h.permX with heq | ⟨heq, hmem⟩
    · exact .inl heq
    · exact .inr ⟨heq, by simp [hmem]⟩
  · have hbits := h.bits
    rw [bits_append, permBits_copy hcopy]
    dsimp only
    generalize (if XApplies omode then l.permXbits else 0#16) = x at *
    ext i hi
    have h1 := congrArg (·[i]) hbits
    simp only [BitVec.getElem_and, BitVec.getElem_or] at h1 ⊢
    grind
  · obtain ⟨hgrow, hroom⟩ := hran.grow stale
    have hisOp : isOp l.op = true := by
      rw [h.op]
      rcases hop with hop | hop <;> rw [hop] <;> rfl
    have hcmd := hgrow.addcopy hroom hcopy l.who hisOp (~~~umask)
    simp only [h.copyMask_spread hnamed (hplain.not_sticky hsub hc (ne_of_isCopy hcopy)), h.op]
      at hcmd
    rcases hop with hop | hop
    · simp only [operate, hop, if_true] at hcmd ⊢
      rw [or_spread_scope c hv] at hcmd
      simpa only [h.op, hop] using hcmd
    · have hne : ¬ '-' = '+' := by decide
      simp only [operate, hop, if_neg hne, if_true] at hcmd ⊢
      rw [clear_spread_scope c hv] at hcmd
      simpa only [h.op, hop] using hcmd

theorem Pending.step (h : Pending umask omode m a perms l done) (hop : a.op = '+' ∨ a.op = '-')
    (hnamed : a.Named) (hplain : a.Plain umask omode m) (hsub : ∀ d ∈ perms, d ∈ a.perms)
    (hc : c ∈ a.perms) (hran : Ran omode l.out (operate a.op m (done &&& a.scope umask)))
    (hletter : l.letter stale (~~~umask) c = some l') :
    ∃ done', Pending umask omode m a (perms ++ [c]) l' done' ∧
      Ran omode l'.out (operate a.op m (done' &&& a.scope umask)) := by
  by_cases hcopy : isCopy c = true
  · have hl' : l' = l.copy stale (~~~umask) c := by
      rcases isCopy_iff.1 hcopy with rfl | rfl | rfl <;>
        exact (Option.some.inj hletter).symm
    obtain ⟨hflush, hran₁, -⟩ := h.flush hop hran stale
    have hassign : ¬ a.op = '=' := by
      rcases hop with hop | hop <;> rw [hop] <;> decide
    rw [hl', Locals.copy]
    generalize (if l.perm ≠ 0#16 then l.addPerm stale (~~~umask) else l) = l₁ at *
    simp only [hflush.op, hassign, if_false]
    rcases hop with hop | hop
    · obtain ⟨hX, hran₂⟩ := hflush.flushX (.inl hop) hnamed hplain hsub hran₁ stale
      have hif : (if a.op = '+' ∧ l₁.permXbits ≠ 0#16 then l₁.addX stale (~~~umask) else l₁) =
          if l₁.permXbits ≠ 0#16 then l₁.addX stale (~~~umask) else l₁ := by
        simp only [hop, true_and]
      rw [hif]
      exact ⟨_, hX.copied (.inl hop) hnamed hplain hsub hc hcopy hran₂ stale⟩
    · have hne : ¬ (a.op = '+' ∧ l₁.permXbits ≠ 0#16) := by
        rw [hop]
        exact fun hne => absurd hne.1 (by decide)
      rw [if_neg hne]
      exact ⟨_, hflush.copied (.inr hop) hnamed hplain hsub hc hcopy hran₁ stale⟩
  · obtain ⟨hnext, hout, -⟩ := h.letter hplain hnamed hsub hc (by simpa using hcopy) hletter
    exact ⟨done, hnext, by rwa [hout]⟩

def Locals.run (stale : Nat → Bitcmd) (mask : Mode) (l : Locals) (a : Action) : Option Locals :=
  (a.perms.foldlM (fun (l : Locals) c => l.letter stale mask c)
    ({ l with who := whoMask a.who }.getop a.op)).map
    fun l => l.done stale mask

theorem getop_who (l : Locals) (who : List Char) (op : Char) :
    ({ l with who := whoMask who }.getop op).who = whoMask who := by
  have hlow := whoMask_low who
  simp only [Locals.getop]
  ext i hi
  have h1 := congrArg (·[i]) hlow
  simp only [BitVec.getElem_and, BitVec.getElem_not, BitVec.getElem_zero] at h1 ⊢
  grind

theorem pending_start (l : Locals) :
    Pending umask omode m a [] ({ l with who := whoMask a.who }.getop a.op) 0#16 where
  op := rfl
  who := .inl (getop_who l a.who a.op)
  perm := by simp [Locals.getop]
  permLow := ⟨0#3, by simp only [Locals.getop]; decide⟩
  doneLow := ⟨0#3, by decide⟩
  alone _ _ := by simp [Locals.getop]
  permX := .inl rfl
  bits := by simp [Locals.getop, Action.bits]

theorem Pending.steps {rest : List Char} (h : Pending umask omode m a perms l done)
    (hop : a.op = '+' ∨ a.op = '-') (hnamed : a.Named) (hplain : a.Plain umask omode m)
    (hperms : perms ++ rest = a.perms) (hran : Ran omode l.out
      (operate a.op m (done &&& a.scope umask)))
    (hletters : rest.foldlM (fun (l : Locals) c => l.letter stale (~~~umask) c) l = some l') :
    ∃ done', Pending umask omode m a a.perms l' done' ∧
      Ran omode l'.out (operate a.op m (done' &&& a.scope umask)) := by
  induction rest generalizing perms l done with
  | nil =>
    obtain rfl := Option.some.inj hletters
    rw [List.append_nil] at hperms
    exact ⟨done, hperms ▸ h, hran⟩
  | cons c rest ih =>
    rw [List.foldlM_cons] at hletters
    obtain ⟨l₁, hl₁, hletters⟩ := Option.bind_eq_some_iff.1 hletters
    have hsub : ∀ d ∈ perms, d ∈ a.perms := fun d hd => by simp [← hperms, hd]
    have hc : c ∈ a.perms := by simp [← hperms]
    obtain ⟨done₁, hnext, hran₁⟩ := h.step hop hnamed hplain hsub hc hran hl₁
    exact ih hnext (by simpa using hperms) hran₁ hletters

theorem Pending.letters {rest : List Char} (h : Pending umask omode m a perms l done)
    (hnamed : a.Named) (hplain : a.Plain umask omode m) (hperms : perms ++ rest = a.perms)
    (hcopies : ∀ c ∈ a.perms, isCopy c = false) {mask : Mode}
    (hletters : rest.foldlM (fun (l : Locals) c => l.letter stale mask c) l = some l') :
    Pending umask omode m a a.perms l' done ∧ l'.out = l.out ∧ l'.equalopdone = l.equalopdone := by
  induction rest generalizing perms l with
  | nil =>
    obtain rfl := Option.some.inj hletters
    rw [List.append_nil] at hperms
    exact ⟨hperms ▸ h, rfl, rfl⟩
  | cons c rest ih =>
    rw [List.foldlM_cons] at hletters
    obtain ⟨l₁, hl₁, hletters⟩ := Option.bind_eq_some_iff.1 hletters
    have hsub : ∀ d ∈ perms, d ∈ a.perms := fun d hd => by simp [← hperms, hd]
    have hc : c ∈ a.perms := by simp [← hperms]
    obtain ⟨hnext, hout, hequal⟩ := h.letter hplain hnamed hsub hc (hcopies c hc) hl₁
    obtain ⟨hlast, hout', hequal'⟩ := ih hnext (by simpa using hperms) hletters
    exact ⟨hlast, hout'.trans hout, hequal'.trans hequal⟩

theorem run_operate (h : Ran omode l.out m) (hop : a.op = '+' ∨ a.op = '-') (hnamed : a.Named)
    (hplain : a.Plain umask omode m) (hrun : l.run stale (~~~umask) a = some l') :
    Ran omode l'.out (a.apply umask omode m) := by
  obtain ⟨l₁, hletters, rfl⟩ := Option.map_eq_some_iff.1 hrun
  have hstart : operate a.op m (0#16 &&& a.scope umask) = m := by
    rw [BitVec.zero_and, operate]
    split
    · exact BitVec.or_zero
    · exact BitVec.and_allOnes
  obtain ⟨done, hlast, hran⟩ := (pending_start l).steps hop hnamed hplain (List.nil_append _)
    (hstart.symm ▸ h) hletters
  obtain ⟨hflush, hran₁, hperm⟩ := hlast.flush hop hran stale
  have hdone : l₁.done stale (~~~umask) =
      let l₂ := if l₁.perm ≠ 0#16 then l₁.addPerm stale (~~~umask) else l₁
      if l₂.permXbits ≠ 0#16 then l₂.addX stale (~~~umask) else l₂ := by
    have hassign : ¬ l₁.op = '=' := by
      rw [hlast.op]
      rcases hop with hop | hop <;> rw [hop] <;> decide
    simp [Locals.done, hassign]
  rw [hdone]
  generalize (if l₁.perm ≠ 0#16 then l₁.addPerm stale (~~~umask) else l₁) = l₂ at *
  obtain ⟨-, hran₂⟩ := hflush.flushX hop hnamed hplain (fun _ hd => hd) hran₁ stale
  have hbits := hflush.bits
  rw [hperm, BitVec.or_zero] at hbits
  rw [hbits] at hran₂
  have happly : a.apply umask omode m =
      operate a.op m (a.bits omode m a.perms &&& a.scope umask) := by
    rcases hop with hop | hop <;> simp [Action.apply, operate, hop]
  rwa [happly]

theorem run_assign (h : Ran omode l.out m) (hop : a.op = '=') (hnamed : a.Named)
    (hplain : a.Plain umask omode m) (hcopies : ∀ c ∈ a.perms, isCopy c = false)
    (hrun : l.run stale (~~~umask) a = some l') : Ran omode l'.out (a.apply umask omode m) := by
  obtain ⟨l₁, hletters, rfl⟩ := Option.map_eq_some_iff.1 hrun
  obtain ⟨hlast, hout, hequal⟩ := (pending_start l).letters hnamed hplain (List.nil_append _)
    hcopies hletters
  have hX : ¬ (XApplies omode ∧ l₁.permXbits ≠ 0#16) := by
    rintro ⟨hx, hne⟩
    have := ((hplain.searches (hlast.permX.resolve_left hne).2).1 hx).1
    rw [hop] at this
    exact absurd this (by decide)
  have hxbits : (if XApplies omode then l₁.permXbits else 0#16) = 0#16 := by
    split_ifs with hx
    · by_contra hne
      exact hX ⟨hx, hne⟩
    · rfl
  have hran : Ran omode l₁.out m := by rwa [hout]
  obtain ⟨hgrow, hroom⟩ := hran.grow stale
  have hcmd := hgrow.addcmd_assign hroom l₁.who l₁.perm (~~~umask)
  have hbits := hlast.bits
  rw [hxbits, BitVec.or_zero, BitVec.zero_or] at hbits
  have hmode : (m &&& ~~~(if l₁.who ≠ 0#16 then l₁.who else standardBits)) |||
      (bitsFor l₁.who (~~~umask) &&& l₁.perm) = a.apply umask omode m := by
    have happly : a.apply umask omode m = (m &&& ~~~a.cleared) ||| (l₁.perm &&& a.scope umask) := by
      simp [Action.apply, hop, hbits]
    rw [hlast.perm, BitVec.and_comm (a.scope umask), happly, Action.cleared]
    by_cases hwho : a.who = []
    · have hzero : l₁.who = 0#16 := by
        rcases hlast.who with heq | ⟨hmem, -⟩
        · rw [heq, hwho]
          rfl
        · exact absurd hop ((hplain.nobody hwho).2 hmem).1
      rw [if_pos hwho, if_neg (by simp [hzero])]
    · have hne := whoMask_ne_zero hnamed hwho
      rw [if_neg hwho]
      rcases hlast.who with heq | ⟨-, heq, hsticky⟩
      · rw [heq, if_pos hne]
      · -- the sticky bit is cleared and set again
        have hne' : l₁.who ≠ 0#16 := by
          rw [heq]
          exact or_sticky_ne_zero _
        rw [if_pos hne', heq, Action.scope, if_neg hwho]
        ext i hi
        have h1 := congrArg (·[i]) hsticky
        simp only [BitVec.getElem_and, BitVec.getElem_or, BitVec.getElem_not, BitVec.getElem_zero]
          at h1 ⊢
        grind
  rw [hmode] at hcmd
  have hdone : (l₁.done stale (~~~umask)).out =
      let l₂ := { l₁ with equalopdone := true }.addPerm stale (~~~umask)
      (if l₂.permXbits ≠ 0#16 then l₂.addX stale (~~~umask) else l₂).out := by
    have heq : l₁.op = '=' ∧ l₁.equalopdone = false := ⟨hlast.op.trans hop, by rw [hequal]; simp
      [Locals.getop, hop]⟩
    simp [Locals.done, heq]
  rw [hdone]
  dsimp only
  split_ifs with hne
  · obtain ⟨hgrow', hroom'⟩ := hcmd.grow stale
    have hcmd' := hgrow'.addcmd_X hroom' l₁.who l₁.permXbits (~~~umask)
    rw [hxbits, BitVec.and_zero, BitVec.or_zero] at hcmd'
    simpa only [Locals.addX, Locals.addPerm, hlast.op, hop] using hcmd'
  · simpa only [Locals.addPerm, hlast.op, hop] using hcmd

theorem run_copy (h : Ran omode l.out m) (hop : a.op = '=') (hnamed : a.Named)
    (hplain : a.Plain umask omode m) (hcopies : ∃ c ∈ a.perms, isCopy c = true)
    (hrun : l.run stale (~~~umask) a = some l') : Ran omode l'.out (a.apply umask omode m) := by
  obtain ⟨l₁, hletters, rfl⟩ := Option.map_eq_some_iff.1 hrun
  obtain ⟨⟨c, hperms⟩, hclear⟩ := hplain.copies hop hcopies
  obtain ⟨d, hd, hcopy⟩ := hcopies
  rw [hperms, List.mem_singleton] at hd
  subst hd
  have hstart : Pending umask omode m a [] ({ l with who := whoMask a.who }.getop a.op) 0#16 :=
    pending_start l
  generalize hl₀ : { l with who := whoMask a.who }.getop a.op = l₀ at *
  have hout₀ : l₀.out = l.out := by rw [← hl₀]; rfl
  have hzero : l₀.perm = 0#16 ∧ l₀.permXbits = 0#16 := by rw [← hl₀]; exact ⟨rfl, rfl⟩
  have hl₁ : l₁ = l₀.copy stale (~~~umask) d := by
    rw [hperms, List.foldlM_cons] at hletters
    rcases isCopy_iff.1 hcopy with rfl | rfl | rfl <;> exact (Option.some.inj hletters).symm
  have hcopied : l₁ = { l₀ with
      equalopdone := true, out := addcopy (l₀.out.grow stale) d l₀.who '=' (~~~umask) } := by
    rw [hl₁, Locals.copy]
    simp [hzero, hstart.op, hop]
  have hdone : (l₁.done stale (~~~umask)).out =
      addcopy (l.out.grow stale) d l₀.who '=' (~~~umask) := by
    rw [hcopied]
    simp [Locals.done, hzero, hout₀]
  rw [hdone]
  obtain ⟨hgrow, hroom⟩ := h.grow stale
  have hcmd := hgrow.addcopy hroom hcopy l₀.who (show isOp '=' = true from rfl) (~~~umask)
  have hsticky : a.who = [] → 't' ∉ ([] : List Char) := fun _ => by simp
  rw [hstart.copyMask_spread hnamed hsticky] at hcmd
  have hmask : copyMask l₀.who (~~~umask) = a.scope umask &&& 0o777#16 := by
    have hall : spread 7#3 = 0o777#16 := by decide
    have hscope := hstart.copyMask_spread hnamed hsticky 7#3
    rw [hall] at hscope
    rw [← copyMask_low, BitVec.and_comm, hscope, BitVec.and_comm]
  have hle : ~~~a.cleared &&& (a.scope umask &&& 0o777#16) = 0#16 := by
    rw [Action.cleared, Action.scope]
    split
    · have hstd : ~~~standardBits &&& 0o777#16 = 0#16 := by decide
      rw [BitVec.and_comm (~~~umask), ← BitVec.and_assoc, hstd]
      exact BitVec.zero_and
    · have htxt : S_ISTXT &&& 0o777#16 = 0#16 := by decide
      rw [BitVec.and_or_distrib_right, htxt, BitVec.or_zero, ← BitVec.and_assoc,
        BitVec.and_comm (~~~_),
        BitVec.and_not_self]
      exact BitVec.zero_and
  have hmode : (m &&& ~~~(a.scope umask &&& 0o777#16)) |||
    (spread (classBits m d) &&& a.scope umask) =
      a.apply umask omode m := by
    have happly : a.apply umask omode m =
        (m &&& ~~~a.cleared) ||| (spread (classBits m d) &&& a.scope umask) := by
      simp [Action.apply, hop, hperms, Action.bits, permBits_copy hcopy]
    rw [happly]
    congr 1
    ext i hi
    have h1 := congrArg (·[i]) hclear
    have h2 := congrArg (·[i]) hle
    simp only [BitVec.getElem_and, BitVec.getElem_not, BitVec.getElem_zero] at h1 h2 ⊢
    grind
  rw [hmask] at hcmd
  rw [← hmode]
  exact hcmd

theorem run_spec (h : Ran omode l.out m) (hop : isOp a.op = true) (hnamed : a.Named)
    (hplain : a.Plain umask omode m) (hrun : l.run stale (~~~umask) a = some l') :
    Ran omode l'.out (a.apply umask omode m) := by
  simp only [isOp, Bool.or_eq_true, decide_eq_true_eq] at hop
  rcases hop with hop | hop
  · exact run_operate h hop hnamed hplain hrun
  · by_cases hcopies : ∃ c ∈ a.perms, isCopy c = true
    · exact run_copy h hop hnamed hplain hcopies hrun
    · exact run_assign h hop hnamed hplain (fun c hc => by
        by_contra hne
        exact hcopies ⟨c, hc, by simpa using hne⟩) hrun

end Bsdi.Setmode
