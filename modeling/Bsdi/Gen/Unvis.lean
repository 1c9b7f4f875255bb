import Bsdi.Gen.Vis

/-!
# Decoding gives back what was encoded

Every character is encoded in one of seven forms. `unvis` is at rest after each of them but `\0`,
where it waits for digits; the encoder looks ahead so that none follow.
-/

namespace Bsdi.Vis

theorem forall_byte {p : Byte → Prop} [DecidablePred p]
    (h : ((List.range 256).all fun n => decide (p (UInt8.ofNat n))) = true) (c : Byte) : p c := by
  have hc := List.all_eq_true.1 h c.toNat (List.mem_range.2 c.toNat_lt)
  rwa [UInt8.ofNat_toNat, decide_eq_true_eq] at hc

/-- The forms in which `vis` encodes the character `c` before `nextc`. -/
inductive Form (c nextc : Byte) : List Byte → Prop
  | plain (hslash : c ≠ backslash) (h0 : c ≠ 0) : Form c nextc [c]
  | slash (h : c = backslash) : Form c nextc [c, backslash]
  | letter {l : Byte} (h : letter c = some l) : Form c nextc [backslash, l]
  | zeros (h : c = 0) : Form c nextc [backslash, 48, 48, 48]
  | zero (h : c = 0) (hnext : isoctal nextc = false) : Form c nextc [backslash, 48]
  | octal : Form c nextc (octal c)
  | caret (hgraph : isgraph c = false) (hspace : c &&& 0x7f ≠ 32) :
    Form c nextc (backslash :: caret c)

variable {fl : Flags} {c nextc : Byte} {enc : List Byte}

theorem isgraph_of_not_plain (h : plain fl c = false) : isgraph c = false := by
  simp only [plain, Bool.or_eq_false_iff] at h
  exact h.1.1.1.1

theorem plain_ne_zero (h : plain fl c = true) : c ≠ 0 := by
  rintro rfl
  have h0 : plain fl 0 = false := by simp [plain, isgraph]
  rw [h0] at h
  cases h

theorem form_cstyle (h : cstyle c nextc = some enc) : Form c nextc enc := by
  unfold cstyle at h
  cases hl : letter c with
  | some l =>
    rw [hl] at h
    obtain rfl := Option.some.inj h
    exact .letter hl
  | none =>
    rw [hl] at h
    dsimp only at h
    split_ifs at h with hc hnext
    · obtain rfl := Option.some.inj h
      exact .zeros hc
    · obtain rfl := Option.some.inj h
      exact .zero hc (Bool.eq_false_iff.2 hnext)

theorem form_vis (hslash : fl.noslash = false) (c nextc : Byte) :
    Form c nextc (vis fl c nextc) := by
  unfold vis
  by_cases hplain : plain fl c = true
  · rw [if_pos hplain]
    by_cases hc : c = backslash
    · rw [if_pos ⟨hc, hslash⟩]
      exact .slash hc
    · rw [if_neg fun h => hc h.1]
      exact .plain hc (plain_ne_zero hplain)
  · rw [if_neg hplain]
    cases hseq : if fl.cstyle then cstyle c nextc else none with
    | some seq =>
      split_ifs at hseq
      exact form_cstyle hseq
    | none =>
      dsimp only
      by_cases hoctal : c &&& 0x7f = 32 ∨ fl.octal = true
      · rw [if_pos hoctal]
        exact .octal
      · rw [if_neg hoctal, hslash]
        exact .caret (isgraph_of_not_plain (Bool.eq_false_iff.2 hplain)) fun h => hoctal (Or.inl h)

theorem Form.length_le (h : Form c nextc enc) : enc.length ≤ 4 := by
  cases h with
  | plain | slash | letter | zeros | zero | octal => simp [Vis.octal]
  | caret =>
    simp only [Vis.caret]
    split_ifs <;> simp

theorem Form.head (h : Form c nextc enc) (hc : isoctal c = false) :
    ∃ b rest, enc = b :: rest ∧ isoctal b = false ∧ b ≠ 0 := by
  have hback : isoctal backslash = false ∧ backslash ≠ 0 := by decide
  cases h with
  | plain _ h0 => exact ⟨c, [], rfl, hc, h0⟩
  | slash h => exact ⟨c, [backslash], rfl, hc, h ▸ hback.2⟩
  | letter | zeros | zero | octal | caret => exact ⟨backslash, _, rfl, hback⟩

variable {mem : Nat → Byte} {cp cp' b : Byte} {st st' : State} {out src : List Byte}

theorem decode_more (hb : b ≠ 0) (h : unvis cp b st = (cp', st', .more)) :
    decode mem (b :: src) ⟨out, cp, st⟩ = decode mem src ⟨out, cp', st'⟩ := by
  rw [decode, if_neg hb, again, h]
  rfl

theorem decode_valid (hb : b ≠ 0) (h : unvis cp b st = (cp', st', .valid)) :
    decode mem (b :: src) ⟨out, cp, st⟩ =
      decode mem src ⟨out ++ [cp'], mem (out.length + 1), st'⟩ := by
  rw [decode, if_neg hb, again, h]
  rfl

theorem decode_start :
    decode mem (backslash :: src) ⟨out, cp, .ground⟩ = decode mem src ⟨out, 0, .start⟩ :=
  decode_more (by decide) rfl

theorem decode_push (hb : b ≠ 0) (hoctal : isoctal b = false) :
    decode mem (b :: src) ⟨out, cp, .octal2⟩ =
      decode mem (b :: src) ⟨out ++ [cp], mem (out.length + 1), .ground⟩ := by
  have hpush : unvis cp b .octal2 = (cp, .ground, .validpush) := by simp [unvis, hoctal]
  rw [decode, decode, if_neg hb, if_neg hb, again, hpush]
  dsimp only
  by_cases hslash : b = backslash
  · have hground : ∀ cp, unvis cp b .ground = (0, .start, .more) := fun cp => if_pos hslash
    simp [again, Decoder.push, hground]
  · have hground : ∀ cp, unvis cp b .ground = (b, .ground, .valid) := fun cp => if_neg hslash
    simp [again, Decoder.push, hground]

theorem special_letter {l : Byte} (h : letter c = some l) : special l = some c ∧ l ≠ 0 := by
  unfold letter at h
  split_ifs at h with h₁ h₂ h₃ h₄ h₅ h₆ h₇ h₈
  all_goals
    obtain rfl := Option.some.inj h
    subst c
    exact ⟨rfl, by decide⟩

theorem decode_letter {l : Byte} (h : letter c = some l) :
    decode mem ([backslash, l] ++ src) ⟨out, cp, .ground⟩ =
      decode mem src ⟨out ++ [c], mem (out.length + 1), .ground⟩ := by
  obtain ⟨hspecial, hl⟩ := special_letter h
  exact decode_start.trans (decode_valid hl (by simp [unvis, unvisStart, hspecial]))

theorem byte_facts (c : Byte) :
    (isoctal ((c &&& 7) + 48) = true ∧ (c &&& 7) + 48 ≠ 0 ∧ special ((c &&& 7) + 48) = none ∧
      (c &&& 7) + 48 - 48 = c &&& 7) ∧
    ((((c >>> 6 &&& 7) <<< 3) + (c >>> 3 &&& 7)) <<< 3) + (c &&& 7) = c ∧
    (iscntrl (c &&& 0x7f) = true →
      let x := if c &&& 0x7f = 0x7f then 63 else (c &&& 0x7f) + 64
      x ≠ 0 ∧
        (if x = 63 then (c &&& 0x80) ||| 0x7f else (c &&& 0x80) ||| (x &&& 0x1f)) = c) ∧
    (isgraph c = false → c &&& 0x7f ≠ 32 → iscntrl (c &&& 0x7f) = false →
      c &&& 0x80 = 0x80 ∧ c &&& 0x7f ≠ 0) ∧
    (c &&& 0x80 = 0 ∨ c &&& 0x80 = 0x80) ∧ (c &&& 0x80) ||| (c &&& 0x7f) = c := by
  revert c
  exact forall_byte (by decide +kernel)

theorem octal_digit (c : Byte) :
    isoctal ((c &&& 7) + 48) = true ∧ (c &&& 7) + 48 ≠ 0 ∧ special ((c &&& 7) + 48) = none ∧
      (c &&& 7) + 48 - 48 = c &&& 7 :=
  (byte_facts c).1

theorem octal_sum (c : Byte) :
    ((((c >>> 6 &&& 7) <<< 3) + (c >>> 3 &&& 7)) <<< 3) + (c &&& 7) = c :=
  (byte_facts c).2.1

theorem decode_octal (c : Byte) :
    decode mem (octal c ++ src) ⟨out, cp, .ground⟩ =
      decode mem src ⟨out ++ [c], mem (out.length + 1), .ground⟩ := by
  obtain ⟨ho₁, hn₁, hs₁, hv₁⟩ := octal_digit (c >>> 6)
  obtain ⟨ho₂, hn₂, -, hv₂⟩ := octal_digit (c >>> 3)
  obtain ⟨ho₃, hn₃, -, hv₃⟩ := octal_digit c
  have h₁ : unvis 0 ((c >>> 6 &&& 7) + 48) .start = (c >>> 6 &&& 7, .octal2, .more) := by
    simp [unvis, unvisStart, hs₁, ho₁, hv₁]
  have h₂ (cp : Byte) : unvis cp ((c >>> 3 &&& 7) + 48) .octal2 =
      ((cp <<< 3) + (c >>> 3 &&& 7), .octal3, .more) := by
    simp [unvis, ho₂, hv₂]
  have h₃ (cp : Byte) : unvis cp ((c &&& 7) + 48) .octal3 =
      ((cp <<< 3) + (c &&& 7), .ground, .valid) := by
    simp [unvis, ho₃, hv₃]
  refine (decode_start.trans ((decode_more hn₁ h₁).trans ((decode_more hn₂ (h₂ _)).trans
    (decode_valid hn₃ (h₃ _))))).trans ?_
  rw [octal_sum]
  rfl

theorem control_byte (c : Byte) : iscntrl (c &&& 0x7f) = true →
    let x := if c &&& 0x7f = 0x7f then 63 else (c &&& 0x7f) + 64
    x ≠ 0 ∧ (if x = 63 then (c &&& 0x80) ||| 0x7f else (c &&& 0x80) ||| (x &&& 0x1f)) = c :=
  (byte_facts c).2.2.1

theorem meta_byte (c : Byte) : isgraph c = false → c &&& 0x7f ≠ 32 →
    iscntrl (c &&& 0x7f) = false → c &&& 0x80 = 0x80 ∧ c &&& 0x7f ≠ 0 :=
  (byte_facts c).2.2.2.1

theorem high_bit (c : Byte) : c &&& 0x80 = 0 ∨ c &&& 0x80 = 0x80 := (byte_facts c).2.2.2.2.1

theorem split_byte (c : Byte) : (c &&& 0x80) ||| (c &&& 0x7f) = c := (byte_facts c).2.2.2.2.2

theorem decode_control {high : Byte} (hcntrl : iscntrl (c &&& 0x7f) = true)
    (hhigh : c &&& 0x80 = high) :
    decode mem ((if c &&& 0x7f = 0x7f then 63 else (c &&& 0x7f) + 64) :: src) ⟨out, high, .ctrl⟩ =
      decode mem src ⟨out ++ [c], mem (out.length + 1), .ground⟩ := by
  obtain ⟨hx, hval⟩ := control_byte c hcntrl
  refine decode_valid hx ?_
  rw [unvis, ← hhigh, hval]

theorem decode_caret (hgraph : isgraph c = false) (hspace : c &&& 0x7f ≠ 32) :
    decode mem (backslash :: caret c ++ src) ⟨out, cp, .ground⟩ =
      decode mem src ⟨out ++ [c], mem (out.length + 1), .ground⟩ := by
  rw [List.cons_append, decode_start, caret, List.append_assoc]
  dsimp only
  by_cases hcntrl : iscntrl (c &&& 0x7f) = true
  · rw [if_pos hcntrl]
    obtain hhigh | hhigh := high_bit c
    · rw [if_neg (not_not.2 hhigh)]
      exact (decode_more (by decide) rfl).trans (decode_control hcntrl hhigh)
    · have hmeta : c &&& 0x80 ≠ 0 := by
        rw [hhigh]
        decide
      rw [if_pos hmeta]
      exact (decode_more (by decide) rfl).trans
        ((decode_more (by decide) rfl).trans (decode_control hcntrl hhigh))
  · -- such a character has the high bit
    rw [if_neg hcntrl]
    obtain ⟨hhigh, hlow⟩ := meta_byte c hgraph hspace (Bool.eq_false_iff.2 hcntrl)
    have hmeta : c &&& 0x80 ≠ 0 := by
      rw [hhigh]
      decide
    have hval : unvis 0x80 (c &&& 0x7f) .meta1 = (c, .ground, .valid) := by
      rw [unvis, ← hhigh, split_byte]
    rw [if_pos hmeta]
    exact (decode_more (by decide) rfl).trans
      ((decode_more (by decide) rfl).trans (decode_valid hlow hval))

theorem decode_vis (h : Form c nextc enc) :
    decode mem (enc ++ src) ⟨out, cp, .ground⟩ =
        decode mem src ⟨out ++ [c], mem (out.length + 1), .ground⟩ ∨
      c = 0 ∧ isoctal nextc = false ∧
        decode mem (enc ++ src) ⟨out, cp, .ground⟩ = decode mem src ⟨out, 0, .octal2⟩ := by
  cases h with
  | plain hslash h0 => exact Or.inl (decode_valid h0 (if_neg hslash))
  | slash h =>
    subst h
    exact Or.inl (decode_start.trans (decode_valid (by decide) rfl))
  | letter h => exact Or.inl (decode_letter h)
  | zeros h =>
    subst h
    exact Or.inl (decode_octal 0)
  | zero h hnext => exact Or.inr ⟨h, hnext, decode_start.trans (decode_more (by decide) rfl)⟩
  | octal => exact Or.inl (decode_octal c)
  | caret hgraph hspace => exact Or.inl (decode_caret hgraph hspace)

/-- The end of `strunvis`. -/
def finish (d : Decoder) : List Byte :=
  if unvisEnd d.state = .valid then d.out ++ [d.cp] else d.out

theorem decode_strvisx (hslash : fl.noslash = false) (s rest : List Byte) (out : List Byte)
    (cp : Byte) :
    (decode mem (strvisx fl s ++ 0 :: rest) ⟨out, cp, .ground⟩).map finish = some (out ++ s) := by
  induction s generalizing out cp with
  | nil => simp [strvisx, decode, finish, unvisEnd]
  | cons c s ih =>
    cases s with
    | nil =>
      rw [strvisx]
      obtain h | ⟨rfl, -, h⟩ := decode_vis (form_vis hslash c 0)
      all_goals
        rw [h]
        simp [decode, finish, unvisEnd]
    | cons nextc s =>
      rw [strvisx, List.append_assoc]
      obtain h | ⟨rfl, hnext, h⟩ := decode_vis (form_vis hslash c nextc)
      · rw [h, ih, List.append_assoc]
        rfl
      · -- the next character is no digit, and neither is the first of its encoding
        obtain ⟨b, t, hb, hoctal, h0⟩ : ∃ b t, strvisx fl (nextc :: s) ++ 0 :: rest = b :: t ∧
            isoctal b = false ∧ b ≠ 0 := by
          cases s with
          | nil =>
            obtain ⟨b, t, heq, hb⟩ := (form_vis hslash nextc 0).head hnext
            exact ⟨b, _, by rw [strvisx, heq]; rfl, hb⟩
          | cons nextc' s =>
            obtain ⟨b, t, heq, hb⟩ := (form_vis hslash nextc nextc').head hnext
            exact ⟨b, _, by rw [strvisx, heq]; rfl, hb⟩
        rw [h, hb, decode_push h0 hoctal, ← hb, ih, List.append_assoc]
        rfl

theorem length_strvisx_le (hslash : fl.noslash = false) (s : List Byte) :
    (strvisx fl s).length ≤ 4 * s.length := by
  induction s with
  | nil => exact Nat.le_refl 0
  | cons c s ih =>
    cases s with
    | nil => exact (form_vis hslash c 0).length_le
    | cons nextc s =>
      have hle := (form_vis hslash c nextc).length_le
      rw [strvisx, List.length_append]
      simp only [List.length_cons] at ih ⊢
      omega

theorem strvis_eq (s rest : List Byte) (hs : 0 ∉ s) :
    strvis fl (s ++ 0 :: rest) = strvisx fl s := by
  induction s with
  | nil => simp [strvis, strvisx]
  | cons c s ih =>
    rw [List.mem_cons, not_or] at hs
    rw [List.cons_append, strvis, if_neg (Ne.symm hs.1), ih hs.2]
    cases s with
    | nil => simp [strvisx]
    | cons nextc s => simp [strvisx]

/-- `strunvis` gives back what `strvisx` encoded, and what `strvis` encoded up to the NUL; the
encoding is at most four times as long. -/
theorem strunvis_strvis (hslash : fl.noslash = false) (s rest : List Byte) :
    strunvis mem (strvisx fl s ++ 0 :: rest) = some s ∧ (strvisx fl s).length ≤ 4 * s.length ∧
      (0 ∉ s → ∀ behind, strunvis mem (strvis fl (s ++ 0 :: behind) ++ 0 :: rest) = some s ∧
        (strvis fl (s ++ 0 :: behind)).length ≤ 4 * s.length) := by
  have htrip : strunvis mem (strvisx fl s ++ 0 :: rest) = some s :=
    decode_strvisx hslash s rest [] (mem 0)
  have hlen := length_strvisx_le hslash s
  refine ⟨htrip, hlen, fun hs behind => ?_⟩
  rw [strvis_eq s behind hs]
  exact ⟨htrip, hlen⟩

/-- A NUL before a digit is written with three digits, and at the end with one. -/
theorem strunvis_strvis_nul :
    strunvis (fun _ => 0)
      (strvisx ⟨false, true, true, true, true, false, false⟩ [0, 49, 200, 0] ++ [0]) =
      some [0, 49, 200, 0] :=
  (strunvis_strvis rfl [0, 49, 200, 0] []).1

theorem vis_visible (c nextc : Byte) :
    ∀ b ∈ vis fl c nextc, isgraph b = true ∨ b = c ∧ plain fl c = true := by
  have hoctal := forall_byte (p := fun c => (octal c).all isgraph = true) (by decide +kernel) c
  have hcaret := forall_byte (p := fun c => c &&& 0x7f ≠ 32 → (caret c).all isgraph = true)
    (by decide +kernel) c
  have hletter := forall_byte (p := fun c => (letter c).all isgraph = true) (by decide +kernel) c
  have hdigit : isgraph backslash = true ∧ isgraph 48 = true := by decide
  intro b hb
  unfold vis cstyle at hb
  rw [List.all_eq_true] at hoctal hcaret
  split_ifs at hb <;> grind

/-- `strvisx` writes graphic characters, and those of the text that the flags let through. -/
theorem strvisx_visible (fl : Flags) (s : List Byte) :
    ∀ b ∈ strvisx fl s, isgraph b = true ∨ b ∈ s ∧ plain fl b = true := by
  induction s using strvisx.induct with
  | case1 => simp [strvisx]
  | case2 c => exact fun b hb => (vis_visible c 0 b hb).imp_right fun h => by simp [h.1, h.2]
  | case3 c nextc src ih =>
    intro b hb
    rw [strvisx, List.mem_append] at hb
    rcases hb with hb | hb
    · exact (vis_visible c nextc b hb).imp_right fun h => by simp [h.1, h.2]
    · exact (ih b hb).imp_right fun h => ⟨List.mem_cons_of_mem _ h.1, h.2⟩

theorem strvisx_visible_space :
    let fl : Flags := ⟨true, false, false, false, false, false, false⟩
    isgraph 32 = true ∨ 32 ∈ ([7, 32] : List Byte) ∧ plain fl 32 = true :=
  strvisx_visible ⟨true, false, false, false, false, false, false⟩ [7, 32] 32 (by decide)

end Bsdi.Vis
