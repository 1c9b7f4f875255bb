import Bsdi.Stdlib.Strtol
import Mathlib.Data.List.TakeWhile
import Mathlib.Tactic.NormNum

/-!
# Subject sequences

The part of a string that is an integer in a given base, and that the four functions find it.
-/

namespace Bsdi.Stdlib

/-- The number with the digits `ds`. -/
def number (radix : Nat) (ds : List Nat) : Nat := ds.foldl (fun v d => v * radix + d) 0

inductive Signed : Bool → List Byte → Prop
  | none : Signed false []
  | plus : Signed false [43]
  | minus : Signed true [45]

/-- The prefix before some digits, and the base that they are in. -/
inductive Radix (base : Nat) : List Byte → List Byte → Nat → Prop
  | hex {x : Byte} {ds : List Byte} (h : base = 0 ∨ base = 16) (hx : x = 120 ∨ x = 88) :
    Radix base [48, x] ds 16
  | octal {ds : List Byte} (h : base = 0) (hds : ds.head? = some 48) : Radix base [] ds 8
  | decimal {ds : List Byte} (h : base = 0) (hds : ds.head? ≠ some 48) : Radix base [] ds 10
  | given {ds : List Byte} (h : base ≠ 0) : Radix base [] ds base

def Digits (radix : Nat) (ds : List Byte) (vals : List Nat) : Prop :=
  ds.map digit = vals.map some ∧ ∀ d ∈ vals, d < radix

/-- White space, a sign, a prefix and at least one digit. -/
inductive Subject (base : Nat) : List Byte → Bool → Nat → Prop
  | intro {sp sg px ds : List Byte} {neg : Bool} {radix : Nat} {vals : List Nat}
    (hsp : ∀ c ∈ sp, isspace c = true) (hsg : Signed neg sg) (hradix : Radix base px ds radix)
    (hne : ds ≠ []) (hdigits : Digits radix ds vals) :
    Subject base (sp ++ (sg ++ (px ++ ds))) neg (number radix vals)

/-- The result is that of the longest subject sequence at the start of the string. `value` makes
the returned number of it, and tells whether there is a range error. -/
def Reads (value : Bool → Nat → Int × Bool) (base : Nat) (nptr : List Byte) (r : Result) : Prop :=
  (∃ u neg v, Subject base u neg v ∧ u <+: nptr ∧
    (∀ u' neg' v', Subject base u' neg' v' → u' <+: nptr → u'.length ≤ u.length) ∧
    r = ⟨(value neg v).1, (value neg v).2, u.length⟩) ∨
  ((∀ u neg v, Subject base u neg v → ¬u <+: nptr) ∧ r = ⟨0, false, 0⟩)

def clamped (lo hi : Int) (neg : Bool) (v : Nat) : Int × Bool :=
  let m : Int := if neg then -v else v
  (max lo (min hi m), decide (m < lo ∨ hi < m))

/-- The number without its sign, clamped to the range; the negation of a number in it. -/
def negated (width : Nat) (neg : Bool) (v : Nat) : Int × Bool :=
  if 2 ^ width ≤ v then (2 ^ width - 1, true)
  else (((if neg then -v else v) : Int) % 2 ^ width, false)

def digitsOf (radix : Nat) (s : List Byte) : List Byte :=
  s.takeWhile fun c => (digit c).any fun d => d < radix

def behindDigits (radix : Nat) (s : List Byte) : List Byte :=
  s.dropWhile fun c => (digit c).any fun d => d < radix

theorem digits_cons {radix d : Nat} {c : Byte} {ds : List Byte} {vals : List Nat} :
    Digits radix (c :: ds) (d :: vals) ↔ (digit c = some d ∧ d < radix) ∧ Digits radix ds vals := by
  simp only [Digits, List.map_cons, List.cons.injEq, List.forall_mem_cons]
  constructor
  · rintro ⟨⟨h₁, h₂⟩, h₃, h₄⟩
    exact ⟨⟨h₁, h₃⟩, h₂, h₄⟩
  · rintro ⟨⟨h₁, h₃⟩, h₂, h₄⟩
    exact ⟨⟨h₁, h₂⟩, h₃, h₄⟩

theorem digits_nil {radix : Nat} : Digits radix [] [] := ⟨rfl, fun _ h => absurd h List.not_mem_nil⟩

theorem Digits.isPrefix {radix : Nat} {ds rest : List Byte} {vals : List Nat}
    (h : Digits radix ds vals) : ds <+: digitsOf radix (ds ++ rest) := by
  induction ds generalizing vals with
  | nil => exact List.nil_prefix
  | cons c ds ih =>
    cases vals with
    | nil => exact absurd h.1 (by simp)
    | cons d vals =>
      obtain ⟨⟨hc, hd⟩, hds⟩ := digits_cons.1 h
      rw [List.cons_append, digitsOf, List.takeWhile_cons_of_pos (by simp [hc, hd])]
      exact (List.cons_prefix_cons).2 ⟨rfl, ih hds⟩

/-- What the loop knows after digits of the value `v`. -/
structure Counted (cut : Nat) (v : Nat) (acc : Nat) (any : Int) : Prop where
  tooBig : any < 0 → cut < v
  counts : 0 ≤ any → acc = v ∧ v ≤ cut

theorem Counted.step {cut v acc base d : Nat} {any : Int} (h : Counted cut v acc any)
    (hd : d < base) :
    (any < 0 ∨ cut / base < acc ∨ (acc = cut / base ∧ cut % base < d)) ↔ cut < v * base + d := by
  have hcut : cut / base * base + cut % base = cut := Nat.div_add_mod' cut base
  have hmod : cut % base < base := Nat.mod_lt _ (by omega)
  by_cases hany : any < 0
  · -- the number was too big before
    refine iff_of_true (Or.inl hany) ?_
    calc cut < v := h.tooBig hany
      _ ≤ v * base := Nat.le_mul_of_pos_right v (by omega)
      _ ≤ v * base + d := Nat.le_add_right _ _
  · obtain ⟨rfl, -⟩ := h.counts (by omega)
    rw [or_iff_right hany]
    obtain hlt | rfl | hgt := Nat.lt_trichotomy acc (cut / base)
    · have hmul : (acc + 1) * base ≤ cut / base * base := Nat.mul_le_mul_right base hlt
      rw [Nat.succ_mul] at hmul
      refine iff_of_false (fun hor => ?_) (by omega)
      obtain h | ⟨h, -⟩ := hor <;> omega
    · constructor
      · rintro (h | ⟨-, h⟩) <;> omega
      · exact fun h => Or.inr ⟨rfl, by omega⟩
    · have hmul : (cut / base + 1) * base ≤ acc * base := Nat.mul_le_mul_right base hgt
      rw [Nat.succ_mul] at hmul
      exact iff_of_true (Or.inl hgt) (by omega)

theorem scan_digits {width base cut : Nat} (hcut : cut < 2 ^ width) (s : List Byte) (v acc : Nat)
    (any : Int) (h : Counted cut v acc any) :
    let r := scan width base (cut / base) (cut % base) acc any s
    r.s = behindDigits base s ∧ (r.any = 0 ↔ any = 0 ∧ digitsOf base s = []) ∧
      ∃ vals, Digits base (digitsOf base s) vals ∧
        Counted cut (vals.foldl (fun v d => v * base + d) v) r.acc r.any := by
  induction s generalizing v acc any with
  | nil => exact ⟨rfl, by simp [scan, digitsOf], [], digits_nil, h⟩
  | cons c s ih =>
    dsimp only
    rw [scan]
    -- the loop ends at a character that is no digit of the base
    have hstop : (digit c).any (fun d => decide (d < base)) = false →
        (c :: s) = behindDigits base (c :: s) ∧ ((any = 0) ↔ any = 0 ∧ digitsOf base (c :: s) = [])
          ∧
          ∃ vals, Digits base (digitsOf base (c :: s)) vals ∧
            Counted cut (vals.foldl (fun v d => v * base + d) v) acc any := by
      intro hc
      have hnil : digitsOf base (c :: s) = [] := List.takeWhile_cons_of_neg (by simp [hc])
      rw [hnil, behindDigits, List.dropWhile_cons_of_neg (by simp [hc])]
      exact ⟨rfl, by simp, [], digits_nil, h⟩
    cases hc : digit c with
    | none => exact hstop (by rw [hc]; rfl)
    | some d =>
      dsimp only
      by_cases hd : base ≤ d
      · rw [if_pos hd]
        exact hstop (by rw [hc]; simp [hd])
      rw [Nat.not_le] at hd
      have hpos : (digit c).any (fun d => decide (d < base)) = true := by simp [hc, hd]
      have hnext : digitsOf base (c :: s) = c :: digitsOf base s :=
        List.takeWhile_cons_of_pos hpos
      have hbehind : behindDigits base (c :: s) = behindDigits base s :=
        List.dropWhile_cons_of_pos hpos
      have hstep := h.step hd
      rw [if_neg (Nat.not_le.2 hd), hnext, hbehind]
      -- the digit is counted, and the rest is as before
      have hgo : ∀ acc' any', any' ≠ 0 → Counted cut (v * base + d) acc' any' →
          let r := scan width base (cut / base) (cut % base) acc' any' s
          r.s = behindDigits base s ∧ (r.any = 0 ↔ any = 0 ∧ c :: digitsOf base s = []) ∧
            ∃ vals, Digits base (c :: digitsOf base s) vals ∧
              Counted cut (vals.foldl (fun v d => v * base + d) v) r.acc r.any := by
        intro acc' any' hany' hcounted
        obtain ⟨hs, hzero, vals, hvals, hrest⟩ := ih _ acc' any' hcounted
        refine ⟨hs, ?_, d :: vals, digits_cons.2 ⟨⟨hc, hd⟩, hvals⟩, hrest⟩
        rw [hzero]
        simp [hany']
      by_cases hover : any < 0 ∨ cut / base < acc ∨ (acc = cut / base ∧ cut % base < d)
      · rw [if_pos hover]
        exact hgo _ (-1) (by decide) ⟨fun _ => hstep.1 hover, fun h => absurd h (by decide)⟩
      · rw [if_neg hover]
        have hle : v * base + d ≤ cut := Nat.not_lt.1 fun h => hover (hstep.2 h)
        obtain ⟨rfl, -⟩ := h.counts (Int.not_lt.1 fun h => hover (Or.inl h))
        rw [Nat.mod_eq_of_lt (hle.trans_lt hcut)]
        exact hgo _ 1 (by decide) ⟨fun h => absurd h (by decide), fun _ => ⟨rfl, hle⟩⟩

theorem sign_signed (s : List Byte) : ∃ sg, s = sg ++ (sign s).2 ∧ Signed (sign s).1 sg := by
  cases s with
  | nil => exact ⟨[], rfl, .none⟩
  | cons c s =>
    rw [sign]
    by_cases hminus : c = 45
    · rw [if_pos hminus]
      exact ⟨[45], by rw [hminus]; rfl, .minus⟩
    by_cases hplus : c = 43
    · rw [if_neg hminus, if_pos hplus]
      exact ⟨[43], by rw [hplus]; rfl, .plus⟩
    · rw [if_neg hminus, if_neg hplus]
      exact ⟨[], rfl, .none⟩

theorem Radix.head {base radix : Nat} {px ds : List Byte} {vals : List Nat}
    (h : Radix base px ds radix) (hne : ds ≠ []) (hdigits : Digits radix ds vals) :
    ∃ c rest, px ++ ds = c :: rest ∧ (digit c).isSome = true := by
  have hds : ∃ c rest, ds = c :: rest ∧ (digit c).isSome = true := by
    cases ds with
    | nil => exact absurd rfl hne
    | cons c ds =>
      cases vals with
      | nil => exact absurd hdigits.1 (by simp)
      | cons d vals => exact ⟨c, ds, rfl, by rw [(digits_cons.1 hdigits).1.1]; rfl⟩
  cases h with
  | hex => exact ⟨48, _, rfl, by decide⟩
  | octal | decimal | given => exact hds

theorem sign_append {neg : Bool} {sg s : List Byte} (h : Signed neg sg)
    (hs : ∃ c rest, s = c :: rest ∧ (digit c).isSome = true) : sign (sg ++ s) = (neg, s) := by
  obtain ⟨c, rest, rfl, hc⟩ := hs
  cases h with
  | plus | minus => rfl
  | none =>
    have hminus : c ≠ 45 := by
      rintro rfl
      exact absurd hc (by decide)
    have hplus : c ≠ 43 := by
      rintro rfl
      exact absurd hc (by decide)
    rw [List.nil_append, sign, if_neg hminus, if_neg hplus]

theorem not_isspace_of_digit {c : Byte} (h : (digit c).isSome = true) : isspace c = false := by
  rw [Bool.eq_false_iff]
  intro hspace
  have hle : c.toNat ≤ 32 := by
    simp [isspace, UInt8.le_iff_toNat_le, ← UInt8.toNat_inj] at hspace
    omega
  have hnone : digit c = none := by
    have hdigit : isdigit c = false := by
      simp [isdigit, UInt8.le_iff_toNat_le]
      omega
    have halpha : isalpha c = false := by
      simp [isalpha, isupper, UInt8.le_iff_toNat_le]
      omega
    rw [digit, hdigit, halpha]
    rfl
  rw [hnone] at h
  cases h

theorem skip_append {neg : Bool} {sp sg s : List Byte} (hsp : ∀ c ∈ sp, isspace c = true)
    (hsg : Signed neg sg) (hs : ∃ c rest, s = c :: rest ∧ (digit c).isSome = true) :
    (sp ++ (sg ++ s)).dropWhile isspace = sg ++ s := by
  have hhead : ∃ c rest, sg ++ s = c :: rest ∧ isspace c = false := by
    obtain ⟨c, rest, rfl, hc⟩ := hs
    cases hsg with
    | plus => exact ⟨43, _, rfl, by decide⟩
    | minus => exact ⟨45, _, rfl, by decide⟩
    | none => exact ⟨c, rest, rfl, not_isspace_of_digit hc⟩
  obtain ⟨c, rest, heq, hc⟩ := hhead
  rw [List.dropWhile_append_of_pos hsp, heq, List.dropWhile_cons_of_neg (by simp [hc])]

/-- A zero and an `x` without a hexadecimal digit, where a prefix may stand. -/
def BarePrefix (base : Nat) (nptr : List Byte) : Prop :=
  let s := (sign (nptr.dropWhile isspace)).2
  (base = 0 ∨ base = 16) ∧ hexPrefix s = true ∧ digitsOf 16 (s.drop 2) = []

theorem hexPrefix_iff {s : List Byte} :
    hexPrefix s = true ↔ ∃ x t, s = [48, x] ++ t ∧ (x = 120 ∨ x = 88) := by
  constructor
  · intro h
    match s, h with
    | c :: x :: t, h =>
      simp only [hexPrefix, Bool.and_eq_true, beq_iff_eq, Bool.or_eq_true] at h
      obtain ⟨rfl, hx⟩ := h
      exact ⟨x, t, rfl, hx⟩
  · rintro ⟨x, t, rfl, rfl | rfl⟩ <;> rfl

theorem detect_radix {base : Nat} {s : List Byte}
    (hdigits : digitsOf (detect base s).1 (detect base s).2 ≠ []) :
    ∃ px, s = px ++ (detect base s).2 ∧
      Radix base px (digitsOf (detect base s).1 (detect base s).2) (detect base s).1 := by
  have hhead : ∀ {radix : Nat} {s : List Byte}, digitsOf radix s ≠ [] →
      (digitsOf radix s).head? = s.head? := by
    intro radix s hne
    cases s with
    | nil => rfl
    | cons c s =>
      rw [digitsOf, List.takeWhile_cons] at hne ⊢
      split_ifs at hne ⊢
      · rfl
      · exact absurd rfl hne
  by_cases hzerox : (base = 0 ∨ base = 16) ∧ hexPrefix s = true
  · have hdetect : detect base s = (16, s.drop 2) := if_pos hzerox
    obtain ⟨x, t, hs, hx⟩ := hexPrefix_iff.1 hzerox.2
    rw [hdetect]
    exact ⟨[48, x], by rw [hs]; rfl, .hex hzerox.1 hx⟩
  by_cases hbase : base = 0
  · have hdetect : detect base s = (if s.head? = some 48 then 8 else 10, s) :=
      (if_neg hzerox).trans (if_pos hbase)
    rw [hdetect] at hdigits ⊢
    dsimp only at hdigits ⊢
    by_cases hzero : s.head? = some 48
    · rw [if_pos hzero] at hdigits ⊢
      exact ⟨[], rfl, .octal hbase ((hhead hdigits).trans hzero)⟩
    · rw [if_neg hzero] at hdigits ⊢
      exact ⟨[], rfl, .decimal hbase fun h => hzero ((hhead hdigits).symm.trans h)⟩
  · have hdetect : detect base s = (base, s) := (if_neg hzerox).trans (if_neg hbase)
    rw [hdetect]
    exact ⟨[], rfl, .given hbase⟩

theorem Digits.length_le_one {radix : Nat} {ds rest : List Byte} {vals : List Nat}
    (h : Digits radix ds vals) (hradix : radix ≤ 16)
    (hzerox : hexPrefix ([] ++ ds ++ rest) = true) : ds.length ≤ 1 := by
  match ds, vals, h with
  | [], _, _ => exact Nat.zero_le 1
  | [c], _, _ => exact Nat.le_refl 1
  | [_, _], [_], h => exact absurd h.1 (by simp)
  | _ :: x :: ds, [], h => exact absurd h.1 (by simp)
  | _ :: _ :: _ :: _, [_], h => exact absurd h.1 (by simp)
  | c :: x :: ds, d :: v :: vals, h =>
    obtain ⟨hx, hv⟩ := (digits_cons.1 (digits_cons.1 h).2).1
    obtain ⟨y, t, hs, hy⟩ := hexPrefix_iff.1 hzerox
    obtain rfl : x = y := (List.cons.inj (List.cons.inj hs).2).1
    obtain rfl | rfl := hy
    all_goals
      obtain rfl : 33 = v := Option.some.inj hx
      omega

theorem detect_longest {base radix : Nat} {px ds rest : List Byte} {vals : List Nat}
    (hradix : Radix base px ds radix) (hne : ds ≠ []) (hdigits : Digits radix ds vals)
    (hbare : ¬((base = 0 ∨ base = 16) ∧ hexPrefix (px ++ ds ++ rest) = true ∧
      digitsOf 16 ((px ++ ds ++ rest).drop 2) = [])) :
    let r := detect base (px ++ ds ++ rest)
    digitsOf r.1 r.2 ≠ [] ∧ (behindDigits r.1 r.2).length ≤ rest.length := by
  have hbehind (radix : Nat) (s : List Byte) :
      (digitsOf radix s).length + (behindDigits radix s).length = s.length := by
    rw [← List.length_append, digitsOf, behindDigits, List.takeWhile_append_dropWhile]
  -- digits in the base that is detected
  have hfound : ∀ s : List Byte, s = ds ++ rest →
      digitsOf radix s ≠ [] ∧ (behindDigits radix s).length ≤ rest.length := by
    rintro s rfl
    have hpre : ds <+: digitsOf radix (ds ++ rest) := hdigits.isPrefix
    have hsum := hbehind radix (ds ++ rest)
    have hle := hpre.length_le
    rw [List.length_append] at hsum
    exact ⟨fun h => hne (List.prefix_nil.1 (h ▸ hpre)), by omega⟩
  have hhead' : ([] ++ ds ++ rest).head? = ds.head? := by
    cases ds with
    | nil => exact absurd rfl hne
    | cons c ds => rfl
  dsimp only
  by_cases hzerox : (base = 0 ∨ base = 16) ∧ hexPrefix (px ++ ds ++ rest) = true
  · have hdetect : detect base (px ++ ds ++ rest) = (16, (px ++ ds ++ rest).drop 2) :=
      if_pos hzerox
    rw [hdetect]
    have hhex : digitsOf 16 ((px ++ ds ++ rest).drop 2) ≠ [] := fun h =>
      hbare ⟨hzerox.1, hzerox.2, h⟩
    have hle := hbehind 16 ((px ++ ds ++ rest).drop 2)
    rw [List.length_drop] at hle
    cases hradix with
    | hex => exact hfound _ rfl
    | octal =>
      have hshort := hdigits.length_le_one (by decide) hzerox.2
      dsimp only [List.nil_append] at hle ⊢
      rw [List.length_append] at hle
      exact ⟨hhex, by omega⟩
    | given hbase =>
      have hshort := hdigits.length_le_one (by omega) hzerox.2
      dsimp only [List.nil_append] at hle ⊢
      rw [List.length_append] at hle
      exact ⟨hhex, by omega⟩
    | decimal _ hhead =>
      obtain ⟨x, t, hs, -⟩ := hexPrefix_iff.1 hzerox.2
      exact absurd (hhead' ▸ congrArg List.head? hs) hhead
  · have hdetect : base = 0 → detect base (px ++ ds ++ rest) =
        (if (px ++ ds ++ rest).head? = some 48 then 8 else 10, px ++ ds ++ rest) := fun h =>
      (if_neg hzerox).trans (if_pos h)
    cases hradix with
    | @hex x _ h hx => exact absurd ⟨h, hexPrefix_iff.2 ⟨x, ds ++ rest, rfl, hx⟩⟩ hzerox
    | octal hbase hhead =>
      rw [hdetect hbase, if_pos (hhead'.trans hhead)]
      exact hfound _ rfl
    | decimal hbase hhead =>
      rw [hdetect hbase, if_neg fun h => hhead (hhead'.symm.trans h)]
      exact hfound _ rfl
    | given hbase =>
      have hdetect : detect base ([] ++ ds ++ rest) = (base, [] ++ ds ++ rest) :=
        (if_neg hzerox).trans (if_neg hbase)
      rw [hdetect]
      exact hfound _ rfl

/-- The limits of a type give the values and the range errors. -/
structure Agrees (lim : Limits) (value : Bool → Nat → Int × Bool) : Prop where
  width (neg : Bool) : lim.largest neg < 2 ^ lim.width
  zero : lim.value 0 = 0
  legal (neg : Bool) (v : Nat) (h : v ≤ lim.largest neg) :
    value neg v = (lim.value (if neg then (2 ^ lim.width - v) % 2 ^ lim.width else v), false)
  tooBig (neg : Bool) (v : Nat) (h : lim.largest neg < v) : value neg v = (lim.extreme neg, true)

theorem agrees_signed (k : Nat) :
    Agrees (signed (k + 1)) (clamped (-2 ^ k) (2 ^ k - 1)) where
  width neg := by
    have hle : (signed (k + 1)).largest neg ≤ 2 ^ k := by
      cases neg with
      | false => exact Nat.sub_le _ _
      | true => exact Nat.le_refl _
    calc _ ≤ 2 ^ k := hle
      _ < 2 ^ (k + 1) := Nat.pow_lt_pow_succ Nat.one_lt_two
  zero := by simp [signed]
  legal neg v h := by
    have hpos := Nat.two_pow_pos k
    have hpow : (2 : Int) ^ k = ((2 ^ k : Nat) : Int) := by norm_cast
    simp only [signed, clamped, Nat.add_sub_cancel, pow_succ, hpow] at h ⊢
    generalize 2 ^ k = n at h hpos ⊢
    cases neg with
    | false =>
      simp only [Bool.false_eq_true, if_false] at h ⊢
      rw [if_pos (by omega), Prod.mk.injEq, decide_eq_false_iff_not]
      omega
    | true =>
      simp only [if_true] at h ⊢
      by_cases hv : v = 0
      · rw [hv, Nat.sub_zero, Nat.mod_self, if_pos hpos, Prod.mk.injEq, decide_eq_false_iff_not]
        omega
      · rw [Nat.mod_eq_of_lt (by omega), if_neg (by omega), Prod.mk.injEq,
          decide_eq_false_iff_not, Nat.cast_sub (by omega)]
        push_cast
        omega
  tooBig neg v h := by
    have hpos := Nat.two_pow_pos k
    have hpow : (2 : Int) ^ k = ((2 ^ k : Nat) : Int) := by norm_cast
    simp only [signed, clamped, Nat.add_sub_cancel, hpow] at h ⊢
    generalize 2 ^ k = n at h hpos ⊢
    cases neg with
    | false =>
      simp only [Bool.false_eq_true, if_false] at h ⊢
      rw [Prod.mk.injEq, decide_eq_true_eq]
      omega
    | true =>
      simp only [if_true] at h ⊢
      rw [Prod.mk.injEq, decide_eq_true_eq]
      omega

theorem agrees_unsigned (width : Nat) : Agrees (unsigned width) (negated width) where
  width _ := by
    simp [unsigned]
  zero := by simp [unsigned]
  legal neg v h := by
    have hpos := Nat.two_pow_pos width
    have hpow : (2 : Int) ^ width = ((2 ^ width : Nat) : Int) := by norm_cast
    simp only [unsigned, negated, hpow] at h ⊢
    rw [if_neg (by omega)]
    generalize 2 ^ width = n at h hpos ⊢
    cases neg with
    | false =>
      have hmod : (v : Int) % n = v := Int.emod_eq_of_lt (by omega) (by omega)
      simp only [Bool.false_eq_true, if_false, hmod]
    | true =>
      simp only [if_true]
      have hneg : (-(v : Int)) % n = ((n - v : Nat) : Int) % n := by
        rw [Nat.cast_sub (by omega), sub_eq_neg_add, Int.add_emod_right]
      rw [hneg, Int.natCast_mod]
  tooBig neg v h := by
    have hpos := Nat.two_pow_pos width
    simp only [unsigned, negated] at h ⊢
    rw [if_pos (by omega)]

theorem Subject.head_of_plus {base v : Nat} {u : List Byte} (h : Subject base u false v) :
    ∃ c rest, u = c :: rest ∧ c ≠ 45 := by
  cases h with
  | @intro sp sg px ds _ radix vals hsp hsg hradix hne hdigits =>
    cases sp with
    | cons c sp =>
      refine ⟨c, _, rfl, ?_⟩
      rintro rfl
      exact absurd (hsp 45 List.mem_cons_self) (by decide)
    | nil =>
      cases hsg with
      | plus => exact ⟨43, _, rfl, by decide⟩
      | none =>
        obtain ⟨c, rest, heq, hc⟩ := hradix.head hne hdigits
        refine ⟨c, rest, heq, ?_⟩
        rintro rfl
        exact absurd hc (by decide)

def digitsAt (base : Nat) (nptr : List Byte) : Nat × List Byte :=
  detect base (sign (nptr.dropWhile isspace)).2

theorem Subject.found {base v : Nat} {nptr u : List Byte} {neg : Bool} (h : Subject base u neg v)
    (hpre : u <+: nptr) (hbare : ¬BarePrefix base nptr) :
    let r := digitsAt base nptr
    digitsOf r.1 r.2 ≠ [] ∧ u.length + (behindDigits r.1 r.2).length ≤ nptr.length := by
  obtain ⟨rest, rfl⟩ := hpre
  cases h with
  | @intro sp sg px ds _ radix vals hsp hsg hradix hne hdigits =>
    have hhead : ∃ c t, px ++ ds ++ rest = c :: t ∧ (digit c).isSome = true := by
      obtain ⟨c, t, heq, hc⟩ := hradix.head hne hdigits
      exact ⟨c, t ++ rest, by rw [heq]; rfl, hc⟩
    have hassoc : sp ++ (sg ++ (px ++ ds)) ++ rest = sp ++ (sg ++ (px ++ ds ++ rest)) := by
      simp only [List.append_assoc]
    have hsign : sign ((sp ++ (sg ++ (px ++ ds)) ++ rest).dropWhile isspace) =
        (neg, px ++ ds ++ rest) := by
      rw [hassoc, skip_append hsp hsg hhead, sign_append hsg hhead]
    rw [BarePrefix, hsign] at hbare
    obtain ⟨hfound, hle⟩ := detect_longest hradix hne hdigits hbare
    rw [digitsAt, hsign]
    refine ⟨hfound, ?_⟩
    calc _ ≤ _ := Nat.add_le_add_left hle _
      _ = _ := List.length_append.symm

theorem convert_reads {lim : Limits} {value : Bool → Nat → Int × Bool} (hlim : Agrees lim value)
    {base : Nat} {nptr : List Byte} (hbare : ¬BarePrefix base nptr) :
    Reads value base nptr (convert lim base nptr) := by
  obtain ⟨sg, hsg, hsigned⟩ := sign_signed (nptr.dropWhile isspace)
  have hnptr : nptr = nptr.takeWhile isspace ++ (sg ++ (sign (nptr.dropWhile isspace)).2) := by
    rw [← hsg, List.takeWhile_append_dropWhile]
  have hconvert : convert lim base nptr =
      let neg := (sign (nptr.dropWhile isspace)).1
      let radix := (digitsAt base nptr).1
      let s := (digitsAt base nptr).2
      let r := scan lim.width radix (lim.largest neg / radix) (lim.largest neg % radix) 0 0 s
      let acc := if neg then (2 ^ lim.width - r.acc) % 2 ^ lim.width else r.acc
      ⟨if r.any < 0 then lim.extreme neg else lim.value acc, decide (r.any < 0),
        if r.any = 0 then 0 else nptr.length - r.s.length⟩ := rfl
  rw [hconvert]
  generalize hneg : (sign (nptr.dropWhile isspace)).1 = neg at hsigned ⊢
  obtain ⟨hs, hzero, vals, hvals, hcounted⟩ := @scan_digits lim.width
    (digitsAt base nptr).1 (lim.largest neg) (hlim.width neg) (digitsAt base nptr).2 0 0 0
    ⟨fun h => absurd h (by decide), fun _ => ⟨rfl, Nat.zero_le _⟩⟩
  dsimp only
  generalize scan _ _ _ _ _ _ _ = r at hs hzero hcounted ⊢
  by_cases hnone : digitsOf (digitsAt base nptr).1 (digitsAt base nptr).2 = []
  · -- without digits there is no subject sequence
    refine Or.inr ⟨fun u neg v hu hpre => (hu.found hpre hbare).1 hnone, ?_⟩
    have hany : r.any = 0 := hzero.2 ⟨rfl, hnone⟩
    obtain rfl : vals = [] := by
      rw [hnone] at hvals
      exact List.map_eq_nil_iff.1 hvals.1.symm
    have hacc : r.acc = 0 := (hcounted.counts (by omega)).1
    have hvalue : lim.value (if neg then (2 ^ lim.width - r.acc) % 2 ^ lim.width else r.acc) = 0 :=
      by
      rw [hacc, Nat.sub_zero, Nat.mod_self, ite_self, hlim.zero]
    rw [hvalue, hany]
    rfl
  · have hany : r.any ≠ 0 := fun h => hnone (hzero.1 h).2
    obtain ⟨px, hpx, hradix⟩ := detect_radix hnone
    change _ = px ++ (digitsAt base nptr).2 at hpx
    change Radix base px (digitsOf (digitsAt base nptr).1 (digitsAt base nptr).2)
      (digitsAt base nptr).1 at hradix
    change Counted _ (number (digitsAt base nptr).1 vals) _ _ at hcounted
    have hparts : nptr = nptr.takeWhile isspace ++ (sg ++ (px ++
        digitsOf (digitsAt base nptr).1 (digitsAt base nptr).2)) ++ r.s := by
      rw [hs]
      simp only [List.append_assoc]
      rw [digitsOf, behindDigits, List.takeWhile_append_dropWhile, ← hpx, ← hnptr]
    have hspace : ∀ c ∈ nptr.takeWhile isspace, isspace c = true := fun c hc =>
      List.mem_takeWhile_imp hc
    have hsubject := Subject.intro hspace hsigned hradix hnone hvals
    have hend : nptr.length - r.s.length = (nptr.takeWhile isspace ++ (sg ++ (px ++
        digitsOf (digitsAt base nptr).1 (digitsAt base nptr).2))).length := by
      have hlen := congrArg List.length hparts
      rw [List.length_append] at hlen
      omega
    refine Or.inl ⟨_, neg, _, hsubject, ⟨r.s, hparts.symm⟩, ?_, ?_⟩
    · intro u neg' v hu hpre
      have hle := (hu.found hpre hbare).2
      rw [← hs] at hle
      rw [← hend]
      omega
    · rw [if_neg hany, hend]
      by_cases hover : r.any < 0
      · rw [if_pos hover, hlim.tooBig neg _ (hcounted.tooBig hover), decide_eq_true hover]
      · obtain ⟨hacc, hle⟩ := hcounted.counts (Int.not_lt.1 hover)
        rw [if_neg hover, hlim.legal neg _ hle, hacc, decide_eq_false hover]

/-- The four functions find the longest subject sequence. `strtol` and `strtoq` clamp its value;
`strtoul` and `strtouq` clamp it without the sign, and return the negation. -/
theorem strto_reads (base : Nat) (nptr : List Byte) (hbare : ¬BarePrefix base nptr) :
    Reads (clamped (-2 ^ 31) (2 ^ 31 - 1)) base nptr (strtol base nptr) ∧
      Reads (negated 32) base nptr (strtoul base nptr) ∧
      Reads (clamped (-2 ^ 63) (2 ^ 63 - 1)) base nptr (strtoq base nptr) ∧
      Reads (negated 64) base nptr (strtouq base nptr) :=
  ⟨convert_reads (agrees_signed 31) hbare, convert_reads (agrees_unsigned 32) hbare,
    convert_reads (agrees_signed 63) hbare, convert_reads (agrees_unsigned 64) hbare⟩

/-- For the string ` -0x1F,`. -/
theorem strto_reads_hex :
    Reads (clamped (-2 ^ 31) (2 ^ 31 - 1)) 0 [32, 45, 48, 120, 49, 70, 44]
      (strtol 0 [32, 45, 48, 120, 49, 70, 44]) :=
  (strto_reads 0 [32, 45, 48, 120, 49, 70, 44] fun h => absurd h.2.2 (by decide)).1

/-- Without its sign, `-1` is in the range of an `unsigned long`. -/
theorem strtoul_negative :
    ¬∀ base nptr, (base = 0 ∨ 2 ≤ base ∧ base ≤ 36) →
      Reads (clamped (-2 ^ 31) (2 ^ 31 - 1)) base nptr (strtol base nptr) ∧
        Reads (clamped 0 (2 ^ 32 - 1)) base nptr (strtoul base nptr) ∧
        Reads (clamped (-2 ^ 63) (2 ^ 63 - 1)) base nptr (strtoq base nptr) ∧
        Reads (clamped 0 (2 ^ 64 - 1)) base nptr (strtouq base nptr) := by
  intro h
  obtain ⟨-, hreads, -⟩ := h 10 [45, 49] (Or.inr (by decide))
  have hresult : strtoul 10 [45, 49] = ⟨4294967295, false, 2⟩ := by decide
  rw [hresult] at hreads
  obtain ⟨u, neg, v, hu, hpre, -, hr⟩ | ⟨-, hr⟩ := hreads
  · obtain ⟨hvalue, hrange, hend⟩ := Result.mk.inj hr
    cases neg with
    | true =>
      simp only [clamped, if_true] at hvalue
      omega
    | false =>
      -- the minus is neither white space, nor another sign, nor a digit
      obtain ⟨c, rest, rfl, hc⟩ := hu.head_of_plus
      exact hc (List.cons_prefix_cons.1 hpre).1
  · cases hr

end Bsdi.Stdlib
