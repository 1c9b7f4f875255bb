import Bsdi.Stdio.Vfprintf
import Mathlib.Data.Nat.Digits.Lemmas

/-!
# What `vfprintf` prints

A precision is the least number of digits, and a sign or a prefix does not count as one.
-/

namespace Bsdi.Printf

/-! ### Layout -/

def blanks (n : Nat) : List Byte := List.replicate n (ascii ' ')

def zeros (n : Nat) : List Byte := List.replicate n (ascii '0')

def layout (left zero : Bool) (width : Nat) (sign body : List Byte) : List Byte :=
  let fill := width - (sign.length + body.length)
  if left then sign ++ body ++ blanks fill
  else if zero then sign ++ zeros fill ++ body
  else blanks fill ++ sign ++ body

theorem length_layout (left zero : Bool) (width : Nat) (sign body : List Byte) :
    (layout left zero width sign body).length = max width (sign.length + body.length) := by
  unfold layout blanks zeros
  dsimp only
  split_ifs <;> simp only [List.length_append, List.length_replicate] <;> omega

theorem layout_ne (left : Bool) (width k : Nat) (sign body : List Byte) (hk : k ≠ 0) :
    layout left false width sign body ≠ layout left false width sign (zeros k ++ body) := by
  intro heq
  have hblank : ∀ n, (blanks n).count (ascii '0') = 0 := fun n =>
    List.count_eq_zero.2 fun hmem => by
      have hchar := List.eq_of_mem_replicate hmem
      revert hchar
      decide
  -- blanks are no zeros, so the padding cannot make up for one
  have hcount := congrArg (List.count (ascii '0')) heq
  unfold layout at hcount
  cases left
  all_goals
    simp only [if_true, Bool.false_eq_true, if_false, List.count_append, hblank] at hcount
    have hzeros : (zeros k).count (ascii '0') = k := List.count_replicate_self
    omega

namespace Uio

def bytes (u : Uio) : List Byte := u.out ++ u.iov.flatten

theorem bytes_flush (u : Uio) : u.flush.bytes = u.bytes := by simp [flush, bytes]

theorem out_flush (u : Uio) : u.flush.out = u.bytes := rfl

theorem bytes_print (s : List Byte) (u : Uio) : (u.print s).bytes = u.bytes ++ s := by
  unfold print
  dsimp only
  split
  · rw [bytes_flush]
    simp [bytes]
  · simp [bytes]

theorem bytes_padLoop (c : Byte) (n : Nat) (u : Uio) :
    (padLoop c n u).bytes = u.bytes ++ List.replicate n c := by
  fun_induction padLoop c n u with
  | case1 n u h ih =>
    rw [ih, bytes_print, List.append_assoc, List.replicate_append_replicate]
    congr 2
    omega
  | case2 n u h => exact bytes_print _ u

theorem bytes_pad (howmany : Int) (c : Byte) (u : Uio) :
    (u.pad howmany c).bytes = u.bytes ++ List.replicate howmany.toNat c := by
  unfold pad
  split
  · exact bytes_padLoop c _ u
  · rw [Int.toNat_of_nonpos (by omega), List.replicate_zero, List.append_nil]

end Uio

namespace Conv

def body (c : Conv) : List Byte := zeros (c.dprec - c.fieldsz).toNat ++ c.cp

theorem fieldsz_eq (c : Conv) : c.fieldsz = c.cp.length + c.ox.length := by
  unfold fieldsz ox
  cases c.sign with
  | some sign => simp
  | none => cases c.flags.hexprefix <;> simp

theorem realsz_eq (c : Conv) : c.realsz = c.ox.length + c.body.length := by
  have hfield := fieldsz_eq c
  unfold realsz body zeros
  rw [List.length_append, List.length_replicate]
  split <;> omega

theorem emit_bytes (c : Conv) (width : Nat) (u : Uio) :
    (c.emit width u).bytes =
      u.bytes ++ layout c.flags.ladjust c.flags.zeropad width c.ox c.body := by
  have hox : ∀ u : Uio, (if c.ox = [] then u else u.print c.ox).bytes = u.bytes ++ c.ox := by
    intro u
    split
    · rename_i h
      rw [h, List.append_nil]
    · exact Uio.bytes_print _ u
  have hfill : ((width : Int) - c.realsz).toNat = width - (c.ox.length + c.body.length) := by
    rw [realsz_eq]
    omega
  unfold emit layout
  cases c.flags.ladjust <;> cases c.flags.zeropad
  all_goals
    simp only [Bool.not_true, Bool.not_false, Bool.and_true, Bool.and_false, Bool.and_self, if_true,
      Bool.false_eq_true, if_false, Uio.bytes_flush, Uio.bytes_pad, Uio.bytes_print, hox, hfill,
      body, blanks, zeros, List.append_assoc]

end Conv

/-! ### Digits -/

def digitsOf (base : Base) (upper : Bool) (val : Nat) : List Byte :=
  (Nat.digits base.toNat val).reverse.map (xdigs upper)

theorem digitsOf_zero (base : Base) (upper : Bool) : digitsOf base upper 0 = [] := by
  simp [digitsOf]

theorem digitsOf_ne_nil (base : Base) (upper : Bool) {val : Nat} (h : val ≠ 0) :
    digitsOf base upper val ≠ [] := by
  simp [digitsOf, Nat.digits_ne_nil_iff_ne_zero.2 h]

theorem digitsOf_step {base : Base} {upper : Bool} {val : Nat} (h : val ≠ 0) :
    digitsOf base upper val =
      digitsOf base upper (val / base.toNat) ++ [xdigs upper (val % base.toNat)] := by
  unfold digitsOf
  rw [Nat.digits_def' base.one_lt (Nat.pos_of_ne_zero h), List.reverse_cons, List.map_append]
  rfl

theorem digitLoop_eq (base : Base) (upper : Bool) (val : Nat) (cp : List Byte) (h : val ≠ 0) :
    digitLoop base (xdigs upper) val cp = digitsOf base upper val ++ cp := by
  fun_induction digitLoop base (xdigs upper) val cp with
  | case1 val cp hlast =>
    rw [digitsOf_step h, hlast, digitsOf_zero]
    rfl
  | case2 val cp hmore ih =>
    rw [ih hmore, digitsOf_step h, List.append_assoc]
    rfl

theorem digitLoop_toChar {base : Base} (hbase : base ≠ .hex) (upper : Bool) (val : Nat)
    (cp : List Byte) : digitLoop base toChar val cp = digitLoop base (xdigs upper) val cp := by
  have hdigit : ∀ n, toChar (n % base.toNat) = xdigs upper (n % base.toNat) := by
    intro n
    have hlt : n % base.toNat < 10 := by
      cases base with
      | oct => exact lt_of_lt_of_le (Nat.mod_lt n (show 0 < 8 by decide)) (by decide)
      | dec => exact Nat.mod_lt n (show 0 < 10 by decide)
      | hex => exact absurd rfl hbase
    exact (if_pos hlt).symm
  fun_induction digitLoop base toChar val cp with
  | case1 val cp hlast => rw [digitLoop, if_pos hlast, hdigit]
  | case2 val cp hmore ih =>
    rw [ih, digitLoop.eq_def base (xdigs upper) val, if_neg hmore, hdigit]

theorem head_digitsOf (upper : Bool) {val : Nat} (h : val ≠ 0) :
    (digitsOf .oct upper val).head? ≠ some (ascii '0') := by
  have hne : Nat.digits 8 val ≠ [] := Nat.digits_ne_nil_iff_ne_zero.2 h
  have hlast := Nat.getLast_digit_ne_zero 8 h
  have hlt : (Nat.digits 8 val).getLast hne < 8 :=
    Nat.digits_lt_base (by decide) (List.getLast_mem hne)
  unfold digitsOf
  rw [List.head?_map, List.head?_reverse, show Base.oct.toNat = 8 from rfl,
    List.getLast?_eq_some_getLast hne]
  generalize (Nat.digits 8 val).getLast hne = x at hlast hlt
  intro hx
  have hall : ∀ x : Fin 8, x.val ≠ 0 → xdigs upper x.val ≠ ascii '0' := by
    cases upper <;> decide
  exact hall ⟨x, hlt⟩ hlast (Option.some.inj hx)

theorem toa_eq (max val : Nat) (base : Base) (octzero upper : Bool) :
    toa max val base octzero upper =
      if val = 0 then zeros 1
      else if base = .oct ∧ octzero = true then ascii '0' :: digitsOf base upper val
      else digitsOf base upper val := by
  have hzero : ∀ base, digitLoop base (xdigs upper) 0 [] = zeros 1 := by
    intro base
    rw [digitLoop, if_pos (Nat.zero_div _), Nat.zero_mod]
    rfl
  have hloop : ∀ base, digitLoop base (xdigs upper) val [] =
      if val = 0 then zeros 1 else digitsOf base upper val := by
    intro base
    split
    · rename_i h
      rw [h, hzero]
    · rename_i h
      rw [digitLoop_eq base upper val [] h, List.append_nil]
  unfold toa
  cases base with
  | hex =>
    simp only [hloop, reduceCtorEq, false_and, if_false]
  | oct =>
    simp only [digitLoop_toChar (show Base.oct ≠ .hex by decide) upper, hloop, true_and]
    by_cases h : val = 0
    · simp only [h, if_true]
      cases octzero <;> rfl
    · simp only [h, if_false]
      have hhead := head_digitsOf upper h
      cases octzero
      · rfl
      · simp [hhead]
  | dec =>
    simp only [digitLoop_toChar (show Base.dec ≠ .hex by decide) upper, reduceCtorEq, false_and,
      if_false]
    by_cases hsmall : val < 10
    · rw [if_pos hsmall]
      split
      · rename_i h
        rw [h]
        rfl
      · rename_i h
        rw [digitsOf_step h, show Base.dec.toNat = 10 from rfl, Nat.div_eq_of_lt hsmall,
          digitsOf_zero, Nat.mod_eq_of_lt hsmall, xdigs, if_pos hsmall]
        rfl
    · have h : val ≠ 0 := by omega
      rw [if_neg hsmall, if_neg h]
      split
      · have hdiv : val / 10 ≠ 0 := by omega
        rw [digitLoop_eq .dec upper _ _ hdiv, digitsOf_step h, xdigs,
          show Base.dec.toNat = 10 from rfl, if_pos (Nat.mod_lt val (by decide))]
      · rw [hloop, if_neg h]

/-! ### What is asked for -/

inductive Flag
  | minus | plus | space | alt | zero
  deriving DecidableEq, Repr

def Flag.char : Flag → Byte
  | .minus => ascii '-'
  | .plus => ascii '+'
  | .space => ascii ' '
  | .alt => ascii '#'
  | .zero => ascii '0'

inductive Amount
  | digits (ds : List Byte)
  | star (n : Int)
  deriving DecidableEq, Repr

inductive Modifier
  | h | l | q
  deriving DecidableEq, Repr

def Modifier.char : Modifier → Byte
  | .h => ascii 'h'
  | .l => ascii 'l'
  | .q => ascii 'q'

inductive Conversion
  | d | i | o | u | x | X | c | s
  deriving DecidableEq, Repr

namespace Conversion

def char : Conversion → Byte
  | .d => ascii 'd'
  | .i => ascii 'i'
  | .o => ascii 'o'
  | .u => ascii 'u'
  | .x => ascii 'x'
  | .X => ascii 'X'
  | .c => ascii 'c'
  | .s => ascii 's'

def signed (conv : Conversion) : Bool := conv = d || conv = i

def number (conv : Conversion) : Bool := conv ≠ c && conv ≠ s

def base : Conversion → Base
  | .o => .oct
  | .x | .X => .hex
  | _ => .dec

end Conversion

/-- A conversion specification. A width does not begin with 0, which is a flag. -/
structure Directive where
  flags : List Flag
  width : Option Amount
  prec : Option Amount
  modifier : Option Modifier
  conv : Conversion
  width_ok : ∀ ds, width = some (.digits ds) →
    ds ≠ [] ∧ ds.head? ≠ some (ascii '0') ∧ ∀ c ∈ ds, isDigit c = true
  prec_ok : ∀ ds, prec = some (.digits ds) → ∀ c ∈ ds, isDigit c = true

namespace Directive

variable (d : Directive)

def widthText : List Byte :=
  match d.width with
  | none => []
  | some (.digits ds) => ds
  | some (.star _) => [ascii '*']

def precText : List Byte :=
  match d.prec with
  | none => []
  | some (.digits ds) => ascii '.' :: ds
  | some (.star _) => [ascii '.', ascii '*']

/-- The text behind `%`. -/
def render : List Byte :=
  d.flags.map Flag.char ++ (d.widthText ++ (d.precText ++
    ((d.modifier.map Modifier.char).toList ++ [d.conv.char])))

def starArg : Option Amount → List Arg
  | some (.star n) => [.int n]
  | _ => []

def args (a : Arg) : List Arg := starArg d.width ++ (starArg d.prec ++ [a])

def left : Bool :=
  .minus ∈ d.flags || match d.width with
    | some (.star n) => n < 0
    | _ => false

def fieldWidth : Nat :=
  match d.width with
  | none => 0
  | some (.digits ds) => number ds
  | some (.star n) => n.natAbs

def precision : Option Nat :=
  match d.prec with
  | none => none
  | some (.digits ds) => some (number ds)
  | some (.star n) => if n < 0 then none else some n.toNat

def bits : Nat :=
  match d.modifier with
  | some .h => 16
  | some .q => 64
  | _ => 32

def alt : Bool := .alt ∈ d.flags

def value (n : Int) : Int := if d.conv.signed then n.bmod (2 ^ d.bits) else n % 2 ^ d.bits

def signText (n : Int) : List Byte :=
  if d.conv.signed then
    if d.value n < 0 then [ascii '-']
    else if .plus ∈ d.flags then [ascii '+']
    else if .space ∈ d.flags then [ascii ' ']
    else []
  else if d.conv.base = .hex ∧ d.alt = true ∧ d.value n ≠ 0 then [ascii '0', d.conv.char]
  else []

/-- At least as many digits as the precision says, which is 1 without one; the `#` flag has an octal
number begin with 0. -/
def digitText (n : Int) : List Byte :=
  let ds := digitsOf d.conv.base (d.conv = .X) (d.value n).natAbs
  let body := zeros (d.precision.getD 1 - ds.length) ++ ds
  if d.conv.base = .oct ∧ d.alt = true ∧ body.head? ≠ some (ascii '0') then ascii '0' :: body
  else body

def text : Arg → List Byte
  | .int n =>
    if d.conv.number then
      layout d.left (.zero ∈ d.flags && d.precision.isNone) d.fieldWidth (d.signText n)
        (d.digitText n)
    else layout d.left false d.fieldWidth [] [(n % 256).toNat.toUInt8]
  | .str s =>
    let chars := (s.getD nullString).takeWhile (· ≠ 0)
    layout d.left false d.fieldWidth [] (match d.precision with
      | none => chars
      | some p => chars.take p)

/-- An argument of the type of the conversion: a string has an end, or as many characters as the
precision says. -/
def Accepts : Arg → Prop
  | .int _ => d.conv ≠ .s
  | .str none => False
  | .str (some s) => d.conv = .s ∧ (0 ∈ s ∨ ∃ p, d.precision = some p ∧ p ≤ s.length)

/-! ### The scan -/

def spec : Spec where
  flags := ⟨d.alt, false, d.left, d.modifier = some .l, d.modifier = some .q, d.modifier = some .h,
    .zero ∈ d.flags⟩
  width := d.fieldWidth
  prec := match d.precision with
    | none => -1
    | some p => p
  sign := if .plus ∈ d.flags then some (ascii '+')
    else if .space ∈ d.flags then some (ascii ' ') else none

end Directive

def Flag.apply (sp : Spec) : Flag → Spec
  | .minus => { sp with flags := { sp.flags with ladjust := true } }
  | .plus => { sp with sign := some (ascii '+') }
  | .space => { sp with sign := sp.sign.or (some (ascii ' ')) }
  | .alt => { sp with flags := { sp.flags with alt := true } }
  | .zero => { sp with flags := { sp.flags with zeropad := true } }

theorem scan_flag (n : Nat) (f : Flag) (fmt : List Byte) (args : List Arg) (sp : Spec) :
    scan (n + 1) (f.char :: fmt) args sp = scan n fmt args (f.apply sp) := by
  cases f <;> rfl

theorem scan_flags (n : Nat) (fs : List Flag) (fmt : List Byte) (args : List Arg) (sp : Spec) :
    scan (n + fs.length) (fs.map Flag.char ++ fmt) args sp =
      scan n fmt args (fs.foldl Flag.apply sp) := by
  induction fs generalizing sp with
  | nil => rfl
  | cons f fs ih =>
    rw [List.length_cons, ← Nat.add_assoc, List.map_cons, List.cons_append, scan_flag, ih]
    rfl

theorem foldl_apply (fs : List Flag) (sp : Spec) : fs.foldl Flag.apply sp =
    ⟨⟨sp.flags.alt || .alt ∈ fs, sp.flags.hexprefix, sp.flags.ladjust || .minus ∈ fs,
        sp.flags.longint, sp.flags.quadint, sp.flags.shortint, sp.flags.zeropad || .zero ∈ fs⟩,
      sp.width, sp.prec, if .plus ∈ fs then some (ascii '+')
        else sp.sign.or (if .space ∈ fs then some (ascii ' ') else none)⟩ := by
  induction fs generalizing sp with
  | nil => cases sp; simp
  | cons f fs ih =>
    rw [List.foldl_cons, ih]
    cases f <;> by_cases hplus : Flag.plus ∈ fs <;> by_cases hspace : Flag.space ∈ fs <;>
      cases hsign : sp.sign <;> simp [Flag.apply, hplus, hspace, hsign]

theorem scan_char (conv : Conversion) (n : Nat) (fmt : List Byte) (args : List Arg) (sp : Spec) :
    scan (n + 1) (conv.char :: fmt) args sp = some (sp, conv.char, fmt, args) := by
  cases conv <;> rfl

theorem scan_modifier (m : Option Modifier) (n : Nat) (fmt : List Byte) (args : List Arg)
    (sp : Spec) (hl : sp.flags.longint = false) (hq : sp.flags.quadint = false)
    (hh : sp.flags.shortint = false) :
    scan (n + m.toList.length) ((m.map Modifier.char).toList ++ fmt) args sp =
      scan n fmt args { sp with flags := { sp.flags with
        longint := m = some .l, quadint := m = some .q, shortint := m = some .h } } := by
  obtain ⟨⟨alt, hexprefix, ladjust, longint, quadint, shortint, zeropad⟩, width, prec, sign⟩ := sp
  dsimp only at hl hq hh
  subst hl hq hh
  cases m with
  | none => rfl
  | some m => cases m <;> rfl

theorem isDigit_cases {c : Byte} (h : isDigit c = true) :
    c ∈ [48, 49, 50, 51, 52, 53, 54, 55, 56, 57] := by
  have hle : (c - 48).toNat ≤ 9 := UInt8.le_iff_toNat_le.1 (of_decide_eq_true h)
  have hlt := c.toNat_lt
  rw [UInt8.toNat_sub, show (48 : Byte).toNat = 48 from rfl] at hle
  have hrange : 48 ≤ c.toNat ∧ c.toNat ≤ 57 := by omega
  have hc : UInt8.ofNat c.toNat = c := UInt8.ofNat_toNat
  rw [← hc]
  generalize c.toNat = n at hrange
  obtain ⟨hmin, hmax⟩ := hrange
  interval_cases n <;> decide

theorem scan_digit {c : Byte} (h : isDigit c = true) (hc : c ≠ ascii '0') (n : Nat)
    (fmt : List Byte) (args : List Arg) (sp : Spec) : scan (n + 1) (c :: fmt) args sp =
      if fits (number (c :: fmt.takeWhile isDigit)) then
        scan n (fmt.dropWhile isDigit) args
          { sp with width := number (c :: fmt.takeWhile isDigit) }
      else none := by
  have hmem := isDigit_cases h
  simp only [List.mem_cons, List.not_mem_nil, or_false] at hmem
  rcases hmem with rfl | rfl | rfl | rfl | rfl | rfl | rfl | rfl | rfl | rfl
  · exact absurd rfl hc
  all_goals
    rw [scan.eq_def]
    dsimp only
    rw [if_neg (by decide), if_neg (by decide), if_neg (by decide), if_neg (by decide),
      if_neg (by decide), if_neg (by decide), if_neg (by decide), if_pos h]

theorem scan_star (n : Nat) (fmt : List Byte) (w : Int) (args : List Arg) (sp : Spec) :
    scan (n + 1) (ascii '*' :: fmt) (.int w :: args) sp =
      if w ≥ 0 then scan n fmt args { sp with width := w }
      else if fits (-w) then
        scan n fmt args { sp with width := -w, flags := { sp.flags with ladjust := true } }
      else none := by
  rw [scan.eq_def]
  dsimp only
  rw [if_neg (by decide), if_neg (by decide), if_pos rfl]

theorem scan_dot {n : Nat} {fmt : List Byte} (h : fmt.head? ≠ some (ascii '*')) (args : List Arg)
    (sp : Spec) : scan (n + 1) (ascii '.' :: fmt) args sp =
      if fits (number (fmt.takeWhile isDigit)) then
        scan n (fmt.dropWhile isDigit) args { sp with prec := number (fmt.takeWhile isDigit) }
      else none := by
  rw [scan.eq_def]
  dsimp only
  rw [if_neg (by decide), if_neg (by decide), if_neg (by decide), if_neg (by decide),
    if_neg (by decide), if_pos rfl, if_neg h]

theorem scan_dot_star (n : Nat) (fmt : List Byte) (p : Int) (args : List Arg) (sp : Spec) :
    scan (n + 1) (ascii '.' :: ascii '*' :: fmt) (.int p :: args) sp =
      scan n fmt args { sp with prec := if p < 0 then -1 else p } := by
  rw [scan.eq_def]
  dsimp only
  rw [if_neg (by decide), if_neg (by decide), if_neg (by decide), if_neg (by decide),
    if_neg (by decide), if_pos rfl]
  exact if_pos rfl

theorem span_append (p : Byte → Bool) {l rest : List Byte} (hl : ∀ c ∈ l, p c = true)
    (hrest : ∀ c, rest.head? = some c → p c = false) :
    (l ++ rest).takeWhile p = l ∧ (l ++ rest).dropWhile p = rest := by
  rw [List.takeWhile_append_of_pos hl, List.dropWhile_append_of_pos hl]
  cases rest with
  | nil => exact ⟨List.append_nil l, rfl⟩
  | cons c rest =>
    have hc := hrest c rfl
    rw [List.takeWhile_cons_of_neg (by simp [hc]), List.dropWhile_cons_of_neg (by simp [hc])]
    exact ⟨List.append_nil l, rfl⟩

def Stops (fmt : List Byte) : Prop := ∀ c, fmt.head? = some c → isDigit c = false

namespace Directive

variable (d : Directive)

theorem scan_width (n : Nat) {fmt : List Byte} (hfmt : Stops fmt) (args : List Arg) (sp : Spec)
    (hwidth : d.fieldWidth < 2147483648) (hsp : sp.width = 0) :
    scan (n + d.width.toList.length) (d.widthText ++ fmt) (starArg d.width ++ args) sp =
      scan n fmt args { sp with
        width := d.fieldWidth
        flags := { sp.flags with ladjust := sp.flags.ladjust || match d.width with
          | some (.star n) => n < 0
          | _ => false } } := by
  unfold fieldWidth at hwidth ⊢
  unfold widthText starArg
  cases hw : d.width with
  | none =>
    obtain ⟨flags, width, prec, sign⟩ := sp
    dsimp only at hsp
    subst hsp
    simp
  | some w =>
    cases w with
    | digits ds =>
      obtain ⟨hne, hhead, hds⟩ := d.width_ok ds hw
      obtain ⟨c, cs, rfl⟩ := List.exists_cons_of_ne_nil hne
      obtain ⟨htake, hdrop⟩ := span_append isDigit
        (fun c hc => hds c (List.mem_cons_of_mem _ hc)) hfmt
      have hfits : fits (number (c :: cs)) = true := by
        rw [hw] at hwidth
        simp only [fits, decide_eq_true_eq]
        exact_mod_cast hwidth
      simp only [Option.toList_some, List.length_singleton, List.nil_append, List.cons_append]
      rw [scan_digit (hds c List.mem_cons_self) (fun h => hhead (by rw [h]; rfl)), htake, hdrop,
        if_pos hfits]
      simp
    | star w =>
      simp only [Option.toList_some, List.length_singleton, List.singleton_append]
      rw [scan_star]
      by_cases hpos : w ≥ 0
      · have hneg : ¬ w < 0 := by omega
        rw [if_pos hpos]
        simp [hneg, Int.natAbs_of_nonneg hpos]
      · have hneg : w < 0 := by omega
        have habs : (w.natAbs : Int) = -w := by omega
        have hfits : fits (-w) = true := by
          rw [hw] at hwidth
          dsimp only at hwidth
          simp only [fits, decide_eq_true_eq]
          omega
        rw [if_neg hpos, if_pos hfits]
        simp [hneg, habs]

/-- A literal precision is an `int`. -/
def precFits : Bool :=
  match d.prec with
  | some (.digits ds) => fits (number ds)
  | _ => true

theorem scan_prec (n : Nat) {fmt : List Byte} (hfmt : Stops fmt)
    (hstar : ∀ ds, d.prec = some (.digits ds) → (ds ++ fmt).head? ≠ some (ascii '*'))
    (args : List Arg) (sp : Spec) (hsp : sp.prec = -1) :
    scan (n + d.prec.toList.length) (d.precText ++ fmt) (starArg d.prec ++ args) sp =
      if d.precFits then scan n fmt args { sp with prec := d.spec.prec } else none := by
  unfold spec precFits precision precText starArg
  cases hp : d.prec with
  | none =>
    obtain ⟨flags, width, prec, sign⟩ := sp
    dsimp only at hsp
    subst hsp
    simp
  | some p =>
    cases p with
    | digits ds =>
      obtain ⟨htake, hdrop⟩ := span_append isDigit (d.prec_ok ds hp) hfmt
      simp only [Option.toList_some, List.length_singleton, List.nil_append, List.cons_append]
      rw [scan_dot (hstar ds hp), htake, hdrop]
    | star p =>
      simp only [Option.toList_some, List.length_singleton, List.cons_append, List.nil_append,
        if_true]
      rw [scan_dot_star]
      by_cases hneg : p < 0
      · simp [hneg]
      · simp only [hneg, if_false, Int.toNat_of_nonneg (not_lt.1 hneg)]

theorem tail_head (post : List Byte) (c : Byte)
    (h : ((d.modifier.map Modifier.char).toList ++ (d.conv.char :: post)).head? = some c) :
    isDigit c = false ∧ c ≠ ascii '*' := by
  cases hm : d.modifier with
  | none =>
    rw [hm] at h
    obtain rfl := Option.some.inj h
    cases d.conv <;> decide
  | some m =>
    rw [hm] at h
    obtain rfl := Option.some.inj h
    cases m <;> decide

theorem scan_render (m : Nat) (a : Arg) (post : List Byte) (hwidth : d.fieldWidth < 2147483648) :
    scan (m + 1 + d.modifier.toList.length + d.prec.toList.length + d.width.toList.length +
        d.flags.length) (d.render ++ post) (d.args a) Spec.start =
      if d.precFits then some (d.spec, d.conv.char, post, [a]) else none := by
  have htail := d.tail_head post
  have hprec : Stops (d.precText ++ ((d.modifier.map Modifier.char).toList ++
      (d.conv.char :: post))) := by
    intro c hc
    unfold precText at hc
    split at hc
    · exact (htail c hc).1
    · obtain rfl := Option.some.inj hc
      rfl
    · obtain rfl := Option.some.inj hc
      rfl
  have hstar : ∀ ds, d.prec = some (.digits ds) → (ds ++ ((d.modifier.map Modifier.char).toList ++
      (d.conv.char :: post))).head? ≠ some (ascii '*') := by
    intro ds hds hhead
    cases ds with
    | nil => exact (htail _ hhead).2 rfl
    | cons c ds =>
      obtain rfl := Option.some.inj hhead
      have hdigit := d.prec_ok _ hds _ List.mem_cons_self
      exact absurd hdigit (by decide)
  have hrender : d.render ++ post = d.flags.map Flag.char ++ (d.widthText ++ (d.precText ++
      ((d.modifier.map Modifier.char).toList ++ (d.conv.char :: post)))) := by
    simp [render]
  -- flags, width, precision and modifier are read one behind the other
  rw [hrender, args, scan_flags, foldl_apply,
    d.scan_width _ hprec _ _ hwidth rfl, d.scan_prec _ (fun c hc => (htail c hc).1) hstar _ _ rfl]
  split
  · rw [scan_modifier _ _ _ _ _ rfl rfl rfl, scan_char]
    simp [spec, left, alt, Spec.start]
  · rfl

/-! ### The conversion of a number -/

/-- The precision asks for no more digits than there are, or there is nothing in front of them, and
the zero of `%#.0o` is not asked for. -/
def Exact (n : Int) : Prop :=
  (d.signText n = [] ∨ ∀ p, d.precision = some p →
    p ≤ max 1 (digitsOf d.conv.base (d.conv = .X) (d.value n).natAbs).length) ∧
  ¬ (d.conv.base = .oct ∧ d.alt = true ∧ d.value n = 0 ∧ d.precision = some 0)

end Directive

theorem cp_eq (sp : Spec) {ch : Byte} (base : Base) (val : Nat) {upper : Bool}
    (hupper : decide (ch = ascii 'X') = upper) : (convNumber sp ch base val).cp =
      if val = 0 then if sp.prec = 0 then [] else zeros 1
      else if base = .oct ∧ sp.flags.alt = true then ascii '0' :: digitsOf base upper val
      else digitsOf base upper val := by
  have hto : (if sp.flags.quadint then uqtoa val base sp.flags.alt (ch = ascii 'X')
      else ultoa val base sp.flags.alt (ch = ascii 'X')) =
      if val = 0 then zeros 1
      else if base = .oct ∧ sp.flags.alt = true then ascii '0' :: digitsOf base upper val
      else digitsOf base upper val := by
    rw [hupper]
    unfold uqtoa ultoa
    split
    · split <;> exact toa_eq ..
    · exact toa_eq ..
  unfold convNumber
  dsimp only
  rw [hto]
  by_cases hval : val = 0
  · by_cases hprec : sp.prec = 0 <;> simp [hval, hprec]
  · simp [hval]

theorem zeros_append (j k : Nat) (s : List Byte) :
    zeros j ++ (zeros k ++ s) = zeros (j + k) ++ s := by
  unfold zeros
  rw [← List.append_assoc, List.replicate_append_replicate]

theorem zeros_cons (k : Nat) (s : List Byte) : zeros k ++ ascii '0' :: s = zeros (k + 1) ++ s := by
  rw [← zeros_append k 1]
  rfl

theorem body_zero (base : Base) (alt : Bool) (ox p : Nat) :
    ∃ k, (if base = .oct ∧ alt = true ∧ (zeros p).head? ≠ some (ascii '0') then
          ascii '0' :: zeros p else zeros p) =
        zeros k ++ (zeros (p - ((if p = 0 then [] else zeros 1).length + ox)) ++
          if p = 0 then [] else zeros 1) ∧
      (k = 0 ↔ (ox = 0 ∨ p ≤ 1) ∧ ¬ (base = .oct ∧ alt = true ∧ p = 0)) := by
  cases p with
  | zero =>
    by_cases halt : base = .oct ∧ alt = true
    · exact ⟨1, by simp [halt, zeros], by simp [halt]⟩
    · refine ⟨0, ?_, ?_⟩
      · rw [if_neg (fun h => halt ⟨h.1, h.2.1⟩)]
        simp [zeros]
      · simp only [true_iff]
        exact ⟨Or.inr (by decide), fun h => halt ⟨h.1, h.2.1⟩⟩
  | succ p =>
    have hlen : (zeros 1).length = 1 := rfl
    rw [if_neg (fun h => h.2.2 rfl), if_neg (by omega), hlen]
    refine ⟨min p ox, ?_, ?_⟩
    · unfold zeros
      rw [List.replicate_append_replicate, List.replicate_append_replicate]
      congr 1
      omega
    · simp only [Nat.add_eq_zero_iff, one_ne_zero, and_false, not_false_eq_true, and_true]
      omega

theorem body_pos {octal : Bool} {ds : List Byte}
    (hhead : octal = true → ds.head? ≠ some (ascii '0')) {ox : Nat} (p : Nat)
    (hox : octal = true → ox = 0) :
    ∃ k, (if octal = true ∧ (zeros (p - ds.length) ++ ds).head? ≠ some (ascii '0') then
          ascii '0' :: (zeros (p - ds.length) ++ ds) else zeros (p - ds.length) ++ ds) =
        zeros k ++ (zeros (p - ((if octal then ascii '0' :: ds else ds).length + ox)) ++
          if octal then ascii '0' :: ds else ds) ∧
      (k = 0 ↔ ox = 0 ∨ p ≤ ds.length) := by
  cases octal with
  | true =>
    obtain rfl := hox rfl
    simp only [if_true, true_and, List.length_cons, Nat.add_zero]
    refine ⟨0, ?_, by simp⟩
    rcases Nat.lt_or_ge ds.length p with hlt | hge
    · obtain ⟨m, hm⟩ := Nat.exists_eq_succ_of_ne_zero (show p - ds.length ≠ 0 by omega)
      have hm' : p - (ds.length + 1) = m := by omega
      rw [hm, hm', if_neg (fun h => h rfl), zeros_cons]
      rfl
    · have hsub : p - ds.length = 0 := by omega
      have hsub' : p - (ds.length + 1) = 0 := by omega
      have hnil : ∀ s, zeros 0 ++ s = s := fun s => rfl
      rw [hsub, hsub', hnil, hnil, hnil, if_pos (hhead rfl)]
  | false =>
    simp only [Bool.false_eq_true, false_and, if_false]
    refine ⟨min (p - ds.length) ox, ?_, by omega⟩
    rw [zeros_append]
    congr 2
    omega

theorem body_eq (sp : Spec) {ch : Byte} {base : Base} {val : Nat} {upper : Bool}
    (hupper : decide (ch = ascii 'X') = upper) (prec : Option Nat)
    (hprec : sp.prec = match prec with | none => -1 | some p => (p : Int))
    (hoct : base = .oct → (convNumber sp ch base val).ox = []) :
    ∃ k, (if base = .oct ∧ sp.flags.alt = true ∧
          (zeros (prec.getD 1 - (digitsOf base upper val).length) ++
            digitsOf base upper val).head? ≠ some (ascii '0') then
          ascii '0' :: (zeros (prec.getD 1 - (digitsOf base upper val).length) ++
            digitsOf base upper val)
        else zeros (prec.getD 1 - (digitsOf base upper val).length) ++ digitsOf base upper val) =
        zeros k ++ (convNumber sp ch base val).body ∧
      (k = 0 ↔ ((convNumber sp ch base val).ox = [] ∨
          ∀ p, prec = some p → p ≤ max 1 (digitsOf base upper val).length) ∧
        ¬ (base = .oct ∧ sp.flags.alt = true ∧ val = 0 ∧ prec = some 0)) ∧
      (k ≠ 0 → prec.isSome = true) := by
  have hcp := cp_eq sp base val hupper
  have hdprec : (convNumber sp ch base val).dprec = sp.prec := rfl
  have hnil : ∀ ox : List Byte, ox = [] ↔ ox.length = 0 := fun ox => List.length_eq_zero_iff.symm
  unfold Conv.body
  rw [Conv.fieldsz_eq, hcp, hdprec]
  -- of the sign or prefix only the length matters from here on
  generalize (convNumber sp ch base val).ox = ox at hoct ⊢
  rw [hnil ox] at hoct ⊢
  -- without a precision the code adds no zeros, and 1 asks for none
  have hsub : ∀ cp : List Byte, (cp = [] → prec ≠ none) →
      (sp.prec - (cp.length + ox.length)).toNat = prec.getD 1 - (cp.length + ox.length) := by
    intro cp hne
    rw [hprec]
    cases prec with
    | none =>
      have hpos : 0 < cp.length := List.length_pos_iff.2 fun h => hne h rfl
      dsimp only [Option.getD_none]
      omega
    | some p =>
      dsimp only [Option.getD_some]
      omega
  have hzero : sp.prec = 0 ↔ prec.getD 1 = 0 := by
    rw [hprec]
    cases prec with
    | none => decide
    | some p => exact Int.natCast_eq_zero
  by_cases hval : val = 0
  · subst hval
    simp only [digitsOf_zero, if_true, List.append_nil, List.length_nil, Nat.sub_zero, hzero]
    rw [hsub _ (by
      intro h hn
      rw [hn] at h
      cases h)]
    obtain ⟨k, heq, hk⟩ := body_zero base sp.flags.alt ox.length (prec.getD 1)
    refine ⟨k, heq, hk.trans ?_, fun hne => ?_⟩
    · cases prec <;> simp
    · cases prec with
      | none => exact absurd (hk.2 ⟨Or.inr (le_refl 1), by simp⟩) hne
      | some p => rfl
  · -- the digits of another number, with at most one forced zero
    have hds := digitsOf_ne_nil base upper hval
    have hpos : 1 ≤ (digitsOf base upper val).length := List.length_pos_iff.2 hds
    have hmax : max 1 (digitsOf base upper val).length = (digitsOf base upper val).length :=
      max_eq_right hpos
    simp only [hval, if_false, false_and, and_false, not_false_eq_true, and_true, hmax]
    obtain ⟨octal, hoctal⟩ : ∃ octal : Bool, (base = .oct ∧ sp.flags.alt = true) ↔ octal = true :=
      ⟨decide (base = .oct ∧ sp.flags.alt = true), by simp⟩
    have hhead : octal = true → (digitsOf base upper val).head? ≠ some (ascii '0') :=
      fun h => (hoctal.2 h).1 ▸ head_digitsOf upper hval
    obtain ⟨k, heq, hk⟩ := body_pos hhead (prec.getD 1) (fun h => hoct (hoctal.2 h).1)
    simp only [← and_assoc, hoctal]
    rw [hsub _ (by
      intro h
      split at h
      · cases h
      · exact absurd h hds)]
    refine ⟨k, ⟨heq, hk.trans ?_⟩, fun hne => ?_⟩
    · cases prec with
      | none => simp [hpos]
      | some p => simp
    · cases prec with
      | none => exact absurd (hk.2 (Or.inr hpos)) hne
      | some p => rfl

namespace Directive

variable (d : Directive)

theorem sarg_spec (n : Int) : sarg d.spec.flags n = n.bmod (2 ^ d.bits) := by
  unfold sarg spec bits
  cases d.modifier with
  | none => rfl
  | some m => cases m <;> rfl

theorem uarg_spec (n : Int) : uarg d.spec.flags n = (n % 2 ^ d.bits).toNat := by
  unfold uarg spec bits
  cases d.modifier with
  | none => rfl
  | some m => cases m <;> rfl

theorem zeropad_eq (sp : Spec) (ch : Byte) (base : Base) (val : Nat)
    (hprec : sp.prec = d.spec.prec) (hzero : sp.flags.zeropad = d.spec.flags.zeropad) :
    (convNumber sp ch base val).flags.zeropad = (.zero ∈ d.flags && d.precision.isNone) := by
  unfold convNumber
  dsimp only
  rw [hprec]
  unfold spec at hzero ⊢
  dsimp only at hzero ⊢
  cases d.precision with
  | none => simp [hzero]
  | some p => simp

def signedSpec (n : Int) : Spec :=
  if d.conv.signed then
    if d.value n < 0 then { d.spec with sign := some (ascii '-') } else d.spec
  else { d.spec with
    sign := none
    flags := { d.spec.flags with
      hexprefix := d.conv.base = .hex && d.spec.flags.alt && (d.value n).natAbs ≠ 0 } }

theorem convert_number (hn : d.conv.number = true) (n : Int) :
    convert d.spec d.conv.char [.int n] =
      some (convNumber (d.signedSpec n) d.conv.char d.conv.base (d.value n).natAbs, []) := by
  have hsigned : ∀ ch, convSigned d.spec ch n = convNumber (if n.bmod (2 ^ d.bits) < 0 then
      { d.spec with sign := some (ascii '-') } else d.spec) ch .dec
        (n.bmod (2 ^ d.bits)).natAbs := by
    intro ch
    unfold convSigned
    rw [sarg_spec]
  have hnat : (n % 2 ^ d.bits).toNat = (n % 2 ^ d.bits).natAbs := by
    have hnn : 0 ≤ n % 2 ^ d.bits := Int.emod_nonneg n (by positivity)
    omega
  have hunsigned : ∀ ch base, convUnsigned d.spec ch base n = convNumber { d.spec with
      sign := none
      flags := { d.spec.flags with
        hexprefix := base = .hex && d.spec.flags.alt && (n % 2 ^ d.bits).natAbs ≠ 0 } }
      ch base (n % 2 ^ d.bits).natAbs := by
    intro ch base
    unfold convUnsigned
    rw [uarg_spec, hnat]
    rfl
  unfold signedSpec value
  generalize d.spec = sp at hsigned hunsigned ⊢
  cases hc : d.conv with
  | d => exact congrArg (fun c => some (c, [])) (hsigned _)
  | i => exact congrArg (fun c => some (c, [])) (hsigned _)
  | o => exact congrArg (fun c => some (c, [])) (hunsigned _ _)
  | u => exact congrArg (fun c => some (c, [])) (hunsigned _ _)
  | x => exact congrArg (fun c => some (c, [])) (hunsigned _ _)
  | X => exact congrArg (fun c => some (c, [])) (hunsigned _ _)
  | c => rw [hc] at hn; cases hn
  | s => rw [hc] at hn; cases hn

def converted (n : Int) : Conv :=
  convNumber (d.signedSpec n) d.conv.char d.conv.base (d.value n).natAbs

theorem ox_converted (n : Int) : (d.converted n).ox = d.signText n := by
  have hox : ∀ sp : Spec, (convNumber sp d.conv.char d.conv.base (d.value n).natAbs).ox =
      sp.sign.elim (if sp.flags.hexprefix then [ascii '0', d.conv.char] else [])
        fun sign => [sign] := by
    intro sp
    have hflags : (convNumber sp d.conv.char d.conv.base (d.value n).natAbs).flags.hexprefix =
        sp.flags.hexprefix := by
      unfold convNumber
      dsimp only
      split <;> rfl
    have hsign : (convNumber sp d.conv.char d.conv.base (d.value n).natAbs).sign = sp.sign := rfl
    rw [Conv.ox, hflags, hsign]
    cases sp.sign <;> rfl
  unfold converted signText
  rw [hox, signedSpec]
  cases d.conv.signed with
  | true =>
    simp only [if_true]
    by_cases hneg : d.value n < 0
    · simp only [if_pos hneg, Option.elim_some]
    · simp only [if_neg hneg, spec]
      by_cases hplus : Flag.plus ∈ d.flags
      · simp only [if_pos hplus, Option.elim_some]
      · by_cases hspace : Flag.space ∈ d.flags
        · simp only [if_neg hplus, if_pos hspace, Option.elim_some]
        · simp only [if_neg hplus, if_neg hspace, Bool.false_eq_true, if_false,
            Option.elim_none]
  | false =>
    simp only [Bool.false_eq_true, if_false, Option.elim_none]
    refine if_congr ?_ rfl rfl
    simp [spec, and_assoc]

theorem signedSpec_eq (n : Int) : (d.signedSpec n).prec = d.spec.prec ∧
    (d.signedSpec n).flags.alt = d.alt ∧ (d.signedSpec n).flags.ladjust = d.left ∧
    (d.signedSpec n).flags.zeropad = d.spec.flags.zeropad := by
  unfold signedSpec
  split
  · split <;> exact ⟨rfl, rfl, rfl, rfl⟩
  · exact ⟨rfl, rfl, rfl, rfl⟩

theorem left_converted (n : Int) : (d.converted n).flags.ladjust = d.left := by
  rw [← (d.signedSpec_eq n).2.2.1]
  unfold converted convNumber
  dsimp only
  split <;> rfl

theorem zero_converted (n : Int) :
    (d.converted n).flags.zeropad = (decide (.zero ∈ d.flags) && d.precision.isNone) :=
  d.zeropad_eq _ _ _ _ (d.signedSpec_eq n).1 (d.signedSpec_eq n).2.2.2

theorem body_converted (n : Int) : ∃ k, d.digitText n = zeros k ++ (d.converted n).body ∧
    (k = 0 ↔ d.Exact n) ∧ (k ≠ 0 → d.precision.isSome = true) := by
  have hupper : decide (d.conv.char = ascii 'X') = decide (d.conv = .X) := by
    cases d.conv <;> rfl
  have hoct : d.conv.base = .oct → (d.converted n).ox = [] := by
    intro hbase
    rw [ox_converted, signText]
    have hsigned : d.conv.signed = false := by
      cases hc : d.conv <;> rw [hc] at hbase <;> first | rfl | cases hbase
    simp [hsigned, hbase]
  have hbody := body_eq (d.signedSpec n) hupper d.precision (d.signedSpec_eq n).1 hoct
  rw [(d.signedSpec_eq n).2.1] at hbody
  obtain ⟨k, heq, hk, hsome⟩ := hbody
  refine ⟨k, heq, hk.trans ?_, hsome⟩
  have hox : (convNumber (d.signedSpec n) d.conv.char d.conv.base (d.value n).natAbs).ox =
      d.signText n := d.ox_converted n
  rw [hox, Exact, Int.natAbs_eq_zero]

/-! ### One conversion -/

/-- `0` says nothing about a character or a string. -/
def Defined : Prop := d.conv.number = true ∨ Flag.zero ∉ d.flags

def Right : Arg → Prop
  | .int n => d.conv.number = true → d.Exact n
  | .str _ => True

def Converts (a : Arg) (c : Conv) : Prop :=
  convert d.spec d.conv.char [a] = some (c, []) ∧ c.flags.ladjust = d.left ∧
    ∃ k, d.text a = layout d.left c.flags.zeropad d.fieldWidth c.ox (zeros k ++ c.body) ∧
      (k = 0 ↔ d.Right a) ∧ (k ≠ 0 → c.flags.zeropad = false)

theorem converts_int {n : Int} (hn : d.conv.number = true) :
    d.Converts (.int n) (d.converted n) := by
  obtain ⟨k, heq, hk, hsome⟩ := d.body_converted n
  refine ⟨d.convert_number hn n, d.left_converted n, k, ?_, hk.trans ?_, fun hne => ?_⟩
  · rw [text, if_pos hn, d.zero_converted, d.ox_converted, heq]
  · exact ⟨fun h _ => h, fun h => h hn⟩
  · have hp := hsome hne
    rw [d.zero_converted]
    cases hprec : d.precision with
    | none => rw [hprec] at hp; cases hp
    | some p => exact Bool.and_false _

theorem converts_text {a : Arg} (cp : List Byte) (hdef : Flag.zero ∉ d.flags)
    (hconvert : convert d.spec d.conv.char [a] =
      some (⟨cp, none, d.spec.flags, 0, d.conv.char⟩, []))
    (htext : d.text a = layout d.left false d.fieldWidth [] cp) (hright : d.Right a) :
    d.Converts a ⟨cp, none, d.spec.flags, 0, d.conv.char⟩ := by
  have hox : (⟨cp, none, d.spec.flags, 0, d.conv.char⟩ : Conv).ox = [] := rfl
  have hzero : d.spec.flags.zeropad = false := decide_eq_false hdef
  have hbody : (⟨cp, none, d.spec.flags, 0, d.conv.char⟩ : Conv).body = cp := by
    unfold Conv.body
    rw [Conv.fieldsz_eq, Int.toNat_of_nonpos (by dsimp only; omega)]
    rfl
  refine ⟨hconvert, rfl, 0, ?_, ⟨fun _ => hright, fun _ => rfl⟩, fun hne => absurd rfl hne⟩
  rw [htext, hox, hbody]
  dsimp only
  rw [hzero]
  rfl

theorem strChars_spec {s : List Byte}
    (h : 0 ∈ s ∨ ∃ p, d.precision = some p ∧ p ≤ s.length) :
    strChars s d.spec.prec = some (match d.precision with
      | none => s.takeWhile (· ≠ 0)
      | some p => (s.takeWhile (· ≠ 0)).take p) := by
  unfold strChars spec
  dsimp only
  cases hp : d.precision with
  | none =>
    have hmem : 0 ∈ s := h.resolve_right fun ⟨p, hp', _⟩ => by rw [hp] at hp'; cases hp'
    dsimp only
    rw [if_neg (by decide), if_pos hmem]
  | some p =>
    have hread : 0 ∈ s.take p ∨ p ≤ s.length := by
      rcases h with hmem | ⟨p', hp', hle⟩
      · rcases Nat.le_total p s.length with hle | hge
        · exact Or.inr hle
        · rw [List.take_of_length_le hge]
          exact Or.inl hmem
      · rw [hp] at hp'
        obtain rfl := Option.some.inj hp'
        exact Or.inr hle
    dsimp only
    rw [if_pos (Int.natCast_nonneg p), Int.toNat_natCast, if_pos hread, List.take_takeWhile]

theorem exists_converts {a : Arg} (hdef : d.Defined) (ha : d.Accepts a) : ∃ c, d.Converts a c := by
  cases hn : d.conv.number with
  | true =>
    cases a with
    | int n => exact ⟨_, d.converts_int hn⟩
    | str s =>
      cases s with
      | none => exact absurd ha id
      | some s =>
        rw [ha.1] at hn
        cases hn
  | false =>
    have hzero : Flag.zero ∉ d.flags := hdef.resolve_left (by rw [hn]; decide)
    cases a with
    | int n =>
      have hc : d.conv = .c := by
        have hs : d.conv ≠ .s := ha
        cases hconv : d.conv <;> rw [hconv] at hn hs <;>
          first | rfl | exact absurd rfl hs | cases hn
      refine ⟨_, d.converts_text [(n % 256).toNat.toUInt8] hzero ?_ ?_ fun h => ?_⟩
      · rw [hc]
        rfl
      · rw [text, hn, if_neg (by decide)]
      · rw [hn] at h
        cases h
    | str s =>
      cases s with
      | none => exact absurd ha id
      | some s =>
        obtain ⟨hs, hread⟩ := ha
        refine ⟨_, d.converts_text _ hzero ?_ rfl trivial⟩
        have hstr : convert d.spec (ascii 's') [.str (some s)] =
            (strChars s d.spec.prec).map fun cp =>
              (⟨cp, none, d.spec.flags, 0, ascii 's'⟩, []) := rfl
        have hchar : d.conv.char = ascii 's' := by rw [hs]; rfl
        rw [hchar, hstr, d.strChars_spec hread]
        rfl

end Directive

/-! ### The whole format -/

theorem fits_iff {n : Nat} : fits n = true ↔ n < 2147483648 := by
  simp only [fits, decide_eq_true_eq]
  exact_mod_cast Iff.rfl

theorem loop_fits (n : Nat) : ∀ {fmt : List Byte} {args : List Arg} {ret : Int} {u : Uio}
    {out : List Byte} {r : Int}, loop n fmt args ret u = some (out, r) → fits r = true := by
  induction n with
  | zero =>
    intro fmt args ret u out r h
    cases h
  | succ n ih =>
    intro fmt args ret u out r h
    rw [loop] at h
    dsimp only at h
    obtain ⟨hfits, h⟩ := Option.ite_none_left_eq_some.1 h
    have hret := hfits
    simp only [Bool.not_eq_true', Bool.not_eq_false] at hret
    split at h
    · cases h
      exact hret
    · split at h
      · cases h
      · split at h
        · cases h
          exact hret
        · split at h
          · cases h
          · exact ih (Option.ite_none_left_eq_some.1 h).2

theorem loop_text (n : Nat) {text : List Byte} (htext : ∀ c ∈ text, c ≠ ascii '%')
    (args : List Arg) (ret : Nat) (u : Uio) :
    loop (n + 1) text args ret u =
      if ret + text.length < 2147483648 then
        some (u.bytes ++ text, ((ret + text.length : Nat) : Int)) else none := by
  obtain ⟨htake, hdrop⟩ := span_append (· ≠ ascii '%')
    (fun c hc => decide_eq_true (htext c hc)) (show ∀ c, [].head? = some c → _ from nofun)
  rw [List.append_nil] at htake hdrop
  have hbytes : (if text = [] then u else u.print text).bytes = u.bytes ++ text := by
    split
    · rename_i h
      rw [h, List.append_nil]
    · exact Uio.bytes_print text u
  rw [loop]
  simp only [htake, hdrop, Uio.out_flush, hbytes, ← Int.natCast_add]
  by_cases hfits : ret + text.length < 2147483648
  · rw [if_pos hfits, fits_iff.2 hfits]
    rfl
  · rw [if_neg hfits, Bool.eq_false_iff.2 fun h => hfits (fits_iff.1 h)]
    rfl

theorem vfprintf_eq (d : Directive) {a : Arg} {c : Conv} (hwidth : d.fieldWidth < 2147483648)
    (hconvert : convert d.spec d.conv.char [a] = some (c, [])) (hleft : c.flags.ladjust = d.left)
    {pre post : List Byte} (hpre : ∀ c ∈ pre, c ≠ ascii '%') (hpost : ∀ c ∈ post, c ≠ ascii '%')
    {text : List Byte} (htext : text = layout d.left c.flags.zeropad d.fieldWidth c.ox c.body) :
    vfprintf (pre ++ ascii '%' :: (d.render ++ post)) (d.args a) =
      if d.precFits = true ∧ (pre ++ text ++ post).length < 2147483648 then
        some (pre ++ text ++ post, ((pre ++ text ++ post).length : Int)) else none := by
  obtain ⟨htake, hdrop⟩ := span_append (· ≠ ascii '%') (fun c hc => decide_eq_true (hpre c hc))
    (show ∀ c, (ascii '%' :: (d.render ++ post)).head? = some c → _ from fun c hc => by
      obtain rfl := Option.some.inj hc
      rfl)
  have hbytes : (if pre = [] then (⟨[], []⟩ : Uio) else Uio.print pre ⟨[], []⟩).bytes = pre := by
    split
    · rename_i h
      rw [h]
      rfl
    · exact Uio.bytes_print pre _
  have hlength : ∃ m, (d.render ++ post).length + 1 = m + 1 + d.modifier.toList.length +
      d.prec.toList.length + d.width.toList.length + d.flags.length := by
    have hw : d.width.toList.length ≤ d.widthText.length := by
      unfold Directive.widthText
      cases hw : d.width with
      | none => exact Nat.zero_le _
      | some w =>
        cases w with
        | digits ds => exact List.length_pos_iff.2 (d.width_ok ds hw).1
        | star n => exact le_refl 1
    have hp : d.prec.toList.length ≤ d.precText.length := by
      unfold Directive.precText
      cases d.prec with
      | none => exact Nat.zero_le _
      | some p => cases p <;> simp
    have hm : (d.modifier.map Modifier.char).toList.length = d.modifier.toList.length := by
      cases d.modifier <;> rfl
    refine ⟨d.widthText.length - d.width.toList.length +
      (d.precText.length - d.prec.toList.length) + post.length + 1, ?_⟩
    simp only [Directive.render, List.length_append, List.length_map, List.length_singleton, hm]
    omega
  have hlayout := length_layout d.left c.flags.zeropad d.fieldWidth c.ox c.body
  rw [← htext] at hlayout
  have hrealsz := c.realsz_eq
  have hchar : d.conv.char ≠ 0 := by cases d.conv <;> decide
  have hwidth' : d.spec.width = d.fieldWidth := rfl
  have hemit := c.emit_bytes d.fieldWidth
    (if pre = [] then (⟨[], []⟩ : Uio) else Uio.print pre ⟨[], []⟩)
  rw [hbytes, hleft, ← htext] at hemit
  have hcount : ((pre.length : Int) + if (d.fieldWidth : Int) > c.realsz then (d.fieldWidth : Int)
      else c.realsz) = ((pre.length + text.length : Nat) : Int) := by
    split <;> omega
  obtain ⟨m, hm⟩ := hlength
  have hfuel : (pre ++ ascii '%' :: (d.render ++ post)).length =
      pre.length + (d.render ++ post).length + 1 := by
    rw [List.length_append, List.length_cons]
    omega
  rw [vfprintf, loop, hfuel]
  simp only [htake, hdrop, hm, d.scan_render m a post hwidth, Int.zero_add]
  by_cases hprec : d.precFits = true
  · simp only [hprec, if_true, hchar, if_false, hconvert, hwidth', hcount, true_and]
    rw [loop_text _ hpost, hemit]
    have hsum : (pre ++ text ++ post).length = pre.length + text.length + post.length := by
      simp only [List.length_append]
    rw [hsum]
    by_cases hfits : pre.length + text.length + post.length < 2147483648
    · rw [if_pos hfits, fits_iff.2 (show pre.length < 2147483648 by omega),
        fits_iff.2 (show pre.length + text.length < 2147483648 by omega)]
      rfl
    · rw [if_neg hfits, ite_self, ite_self]
  · simp only [hprec, Bool.false_eq_true, if_false, false_and, ite_self]

/-- A conversion specification between two literal texts gives the text that it prescribes, and the
number of the characters, when the number is printed in full and no count is too large. -/
theorem vfprintf_iff (d : Directive) {a : Arg} (hdef : d.Defined) (ha : d.Accepts a)
    {pre post : List Byte} (hpre : ∀ c ∈ pre, c ≠ ascii '%') (hpost : ∀ c ∈ post, c ≠ ascii '%') :
    vfprintf (pre ++ ascii '%' :: (d.render ++ post)) (d.args a) =
        some (pre ++ d.text a ++ post, ((pre ++ d.text a ++ post).length : Int)) ↔
      d.Right a ∧ d.precFits = true ∧ (pre ++ d.text a ++ post).length < 2147483648 := by
  obtain ⟨c, hconvert, hleft, k, htext, hk, hzero⟩ := d.exists_converts hdef ha
  have hsize := length_layout d.left c.flags.zeropad d.fieldWidth c.ox (zeros k ++ c.body)
  rw [← htext] at hsize
  by_cases hcount : (pre ++ d.text a ++ post).length < 2147483648
  · have hsum : (pre ++ d.text a ++ post).length =
        pre.length + (d.text a).length + post.length := by
      simp only [List.length_append]
    have hwidth : d.fieldWidth < 2147483648 := by omega
    rw [vfprintf_eq d hwidth hconvert hleft hpre hpost rfl]
    by_cases hkz : k = 0
    · subst hkz
      have hsame : layout d.left c.flags.zeropad d.fieldWidth c.ox c.body = d.text a := htext.symm
      rw [hsame]
      simp [hk.1 rfl, hcount]
    · have hwrong : layout d.left c.flags.zeropad d.fieldWidth c.ox c.body ≠ d.text a := by
        rw [htext, hzero hkz]
        exact layout_ne d.left d.fieldWidth k c.ox c.body hkz
      constructor
      · intro h
        obtain ⟨-, h⟩ := Option.ite_none_right_eq_some.1 h
        have hout := congrArg Prod.fst (Option.some.inj h)
        exact absurd (List.append_cancel_left (List.append_cancel_right hout)) hwrong
      · rintro ⟨hright, -⟩
        exact absurd (hk.2 hright) hkz
  · -- a count that does not fit is never returned
    refine ⟨fun h => ?_, fun h => absurd h.2.2 hcount⟩
    exact absurd (fits_iff.1 (loop_fits _ h)) hcount

/-- `%+08d` of -42. -/
def plusZeroEight : Directive where
  flags := [.plus, .zero]
  width := some (.digits [ascii '8'])
  prec := none
  modifier := none
  conv := .d
  width_ok ds h := by
    obtain rfl := Amount.digits.inj (Option.some.inj h)
    refine ⟨List.cons_ne_nil _ _, by decide, fun c hc => ?_⟩
    obtain rfl := List.mem_singleton.1 hc
    rfl
  prec_ok ds h := by cases h

theorem vfprintf_minus : vfprintf ([ascii 'a'] ++ ascii '%' :: (plusZeroEight.render ++ []))
    (plusZeroEight.args (.int (-42))) =
      some ([97, 45, 48, 48, 48, 48, 48, 52, 50], 9) := by
  have htext : plusZeroEight.text (.int (-42)) = [45, 48, 48, 48, 48, 48, 52, 50] := by
    have hsign : plusZeroEight.signText (-42) = [45] := by decide
    have hdigits : plusZeroEight.digitText (-42) = [52, 50] := by
      have hvalue : (plusZeroEight.value (-42)).natAbs = 42 := by decide
      unfold Directive.digitText digitsOf
      rw [hvalue]
      norm_num [plusZeroEight, Conversion.base, Base.toNat, Directive.precision, zeros]
      decide
    rw [Directive.text, if_pos (by decide), hsign, hdigits]
    decide
  have hpre : ∀ c ∈ [ascii 'a'], c ≠ ascii '%' := by
    intro c hc
    obtain rfl := List.mem_singleton.1 hc
    decide
  have haccepts : plusZeroEight.Accepts (.int (-42)) := (by decide : plusZeroEight.conv ≠ .s)
  have hprint := (@vfprintf_iff plusZeroEight (.int (-42)) (Or.inl rfl) haccepts [ascii 'a'] []
    hpre nofun).2
      ⟨fun _ => ⟨Or.inr (fun p hp => by cases hp), by decide⟩, rfl, by rw [htext]; decide⟩
  rw [hprint, htext]
  rfl

/-- `%+.2d`. -/
def plusTwo : Directive where
  flags := [.plus]
  width := none
  prec := some (.digits [ascii '2'])
  modifier := none
  conv := .d
  width_ok ds h := by cases h
  prec_ok ds h := by
    obtain rfl := Amount.digits.inj (Option.some.inj h)
    intro c hc
    obtain rfl := List.mem_singleton.1 hc
    rfl

/-- `%+.2d` of 5 is +5, and not +05. -/
theorem vfprintf_precision : ∃ (d : Directive) (n : Int), d.Defined ∧ d.Accepts (.int n) ∧
    vfprintf (ascii '%' :: d.render) (d.args (.int n)) = some ([43, 53], 2) ∧
    d.text (.int n) = [43, 48, 53] := by
  refine ⟨plusTwo, 5, Or.inl rfl, (show plusTwo.conv ≠ .s by decide),
    by decide +kernel, ?_⟩
  have hsign : plusTwo.signText 5 = [43] := by decide
  have hdigits : plusTwo.digitText 5 = [48, 53] := by
    have hvalue : (plusTwo.value 5).natAbs = 5 := by decide
    unfold Directive.digitText digitsOf
    rw [hvalue]
    norm_num [plusTwo, Conversion.base, Base.toNat, Directive.precision, zeros]
    decide
  rw [Directive.text, if_pos (by decide), hsign, hdigits]
  decide

end Bsdi.Printf
