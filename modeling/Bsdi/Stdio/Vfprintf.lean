import Mathlib.Data.List.Basic
import Mathlib.Tactic.Ring

/-!
# Formatted output

`vfprintf` for the conversions of integers, characters and strings, with its I/O vector. Where an
`int` would overflow, where an argument has another type, or where a string is read behind its end,
there is no result.
-/

namespace Bsdi.Printf

abbrev Byte := UInt8

def ascii (c : Char) : Byte := c.toUInt8

structure Flags where
  alt : Bool
  hexprefix : Bool
  ladjust : Bool
  longint : Bool
  quadint : Bool
  shortint : Bool
  zeropad : Bool
  deriving DecidableEq, Repr

/-- What stands between `%` and the conversion. -/
structure Spec where
  flags : Flags
  width : Int
  prec : Int
  sign : Option Byte
  deriving DecidableEq, Repr

def Spec.start : Spec := ⟨⟨false, false, false, false, false, false, false⟩, 0, -1, none⟩

/-- A string is what can be read from its pointer on. -/
inductive Arg
  | int (n : Int)
  | str (s : Option (List Byte))
  deriving DecidableEq, Repr

def isDigit (c : Byte) : Bool := c - ascii '0' ≤ 9

def number (digits : List Byte) : Nat :=
  digits.foldl (fun n c => 10 * n + (c - ascii '0').toNat) 0

def fits (n : Int) : Bool := n < 2147483648

/-- From `rflag` to the conversion. -/
def scan : Nat → List Byte → List Arg → Spec → Option (Spec × Byte × List Byte × List Arg)
  | 0, _, _, _ => none
  | _ + 1, [], args, sp => some (sp, 0, [], args)
  | n + 1, ch :: fmt, args, sp =>
    if ch = ascii ' ' then scan n fmt args { sp with sign := sp.sign.or (some (ascii ' ')) }
    else if ch = ascii '#' then scan n fmt args { sp with flags := { sp.flags with alt := true } }
    else if ch = ascii '*' then
      match args with
      | .int width :: args =>
        if width ≥ 0 then scan n fmt args { sp with width := width }
        else if fits (-width) then
          scan n fmt args { sp with width := -width, flags := { sp.flags with ladjust := true } }
        else none
      | _ => none
    else if ch = ascii '-' then
      scan n fmt args { sp with flags := { sp.flags with ladjust := true } }
    else if ch = ascii '+' then scan n fmt args { sp with sign := some (ascii '+') }
    else if ch = ascii '.' then
      if fmt.head? = some (ascii '*') then
        match args with
        | .int prec :: args =>
          scan n fmt.tail args { sp with prec := if prec < 0 then -1 else prec }
        | _ => none
      else if fits (number (fmt.takeWhile isDigit)) then
        scan n (fmt.dropWhile isDigit) args { sp with prec := number (fmt.takeWhile isDigit) }
      else none
    else if ch = ascii '0' then
      scan n fmt args { sp with flags := { sp.flags with zeropad := true } }
    else if isDigit ch then
      if fits (number (ch :: fmt.takeWhile isDigit)) then
        scan n (fmt.dropWhile isDigit) args
          { sp with width := number (ch :: fmt.takeWhile isDigit) }
      else none
    else if ch = ascii 'h' then
      scan n fmt args { sp with flags := { sp.flags with shortint := true } }
    else if ch = ascii 'l' then
      scan n fmt args { sp with flags := { sp.flags with
        quadint := sp.flags.quadint || sp.flags.longint, longint := true } }
    else if ch = ascii 'q' then
      scan n fmt args { sp with flags := { sp.flags with quadint := true } }
    else some (sp, ch, fmt, args)

inductive Base
  | oct | dec | hex
  deriving DecidableEq, Repr

def Base.toNat : Base → Nat
  | .oct => 8
  | .dec => 10
  | .hex => 16

theorem Base.one_lt (base : Base) : 1 < base.toNat := by cases base <;> decide

def toChar (n : Nat) : Byte := ascii '0' + n.toUInt8

def xdigs (upper : Bool) (n : Nat) : Byte :=
  if n < 10 then toChar n
  else (if upper then ascii 'A' else ascii 'a') + (n - 10).toUInt8

/-- One of the loops that store digits in front of `cp`. -/
def digitLoop (base : Base) (digit : Nat → Byte) (val : Nat) (cp : List Byte) : List Byte :=
  if val / base.toNat = 0 then digit (val % base.toNat) :: cp
  else digitLoop base digit (val / base.toNat) (digit (val % base.toNat) :: cp)
termination_by val
decreasing_by
  have hpos : 0 < val := by
    by_contra h
    simp_all
  exact Nat.div_lt_self hpos base.one_lt

/-- `__ultoa` and `__uqtoa` but for their first test, with `LONG_MAX` or `QUAD_MAX`. -/
def toa (max val : Nat) (base : Base) (octzero upper : Bool) : List Byte :=
  match base with
  | .dec =>
    if val < 10 then [toChar val]
    -- one unsigned step makes the value fit in a signed one
    else if val > max then digitLoop .dec toChar (val / 10) [toChar (val % 10)]
    else digitLoop .dec toChar val []
  | .oct =>
    let cp := digitLoop .oct toChar val []
    if octzero && cp.head? ≠ some (ascii '0') then ascii '0' :: cp else cp
  | .hex => digitLoop .hex (xdigs upper) val []

def ultoa (val : Nat) (base : Base) (octzero upper : Bool) : List Byte :=
  toa 2147483647 val base octzero upper

def uqtoa (val : Nat) (base : Base) (octzero upper : Bool) : List Byte :=
  if val ≤ 4294967295 then ultoa val base octzero upper
  else toa 9223372036854775807 val base octzero upper

/-- `SARG`, or the fetch of a `quad_t`. -/
def sarg (flags : Flags) (n : Int) : Int :=
  if flags.quadint then n.bmod (2 ^ 64)
  else if flags.longint then n.bmod (2 ^ 32)
  else if flags.shortint then n.bmod (2 ^ 16)
  else n.bmod (2 ^ 32)

/-- `UARG`, or the fetch of a `u_quad_t`. -/
def uarg (flags : Flags) (n : Int) : Nat :=
  if flags.quadint then (n % 2 ^ 64).toNat
  else if flags.longint then (n % 2 ^ 32).toNat
  else if flags.shortint then (n % 2 ^ 16).toNat
  else (n % 2 ^ 32).toNat

structure Conv where
  cp : List Byte
  sign : Option Byte
  flags : Flags
  dprec : Int
  ch : Byte
  deriving DecidableEq, Repr

/-- From `number` on. -/
def convNumber (sp : Spec) (ch : Byte) (base : Base) (val : Nat) : Conv where
  cp :=
    if val ≠ 0 ∨ sp.prec ≠ 0 then
      if sp.flags.quadint then uqtoa val base sp.flags.alt (ch = ascii 'X')
      else ultoa val base sp.flags.alt (ch = ascii 'X')
    else []
  sign := sp.sign
  flags := if sp.prec ≥ 0 then { sp.flags with zeropad := false } else sp.flags
  dprec := sp.prec
  ch := ch

def convSigned (sp : Spec) (ch : Byte) (n : Int) : Conv :=
  let n := sarg sp.flags n
  convNumber (if n < 0 then { sp with sign := some (ascii '-') } else sp) ch .dec n.natAbs

/-- From `nosign` on, or from `hex` on. -/
def convUnsigned (sp : Spec) (ch : Byte) (base : Base) (n : Int) : Conv :=
  let val := uarg sp.flags n
  let prefixed := base = .hex && sp.flags.alt && val ≠ 0
  convNumber { sp with
    sign := none
    flags := { sp.flags with hexprefix := sp.flags.hexprefix || prefixed } } ch base val

/-- The string of `%s`, as far as the precision goes. -/
def strChars (s : List Byte) (prec : Int) : Option (List Byte) :=
  if prec ≥ 0 then
    if 0 ∈ s.take prec.toNat ∨ prec.toNat ≤ s.length then
      some ((s.take prec.toNat).takeWhile (· ≠ 0))
    else none
  else if 0 ∈ s then some (s.takeWhile (· ≠ 0)) else none

def nullString : List Byte := [40, 110, 117, 108, 108, 41, 0]

def Spec.long (sp : Spec) : Spec := { sp with flags := { sp.flags with longint := true } }

/-- The switch behind the flags, for `ch` not null; `%n`, `%p` and the conversions of floating-point
numbers are left out. -/
def convert (sp : Spec) (ch : Byte) (args : List Arg) : Option (Conv × List Arg) :=
  if ch = ascii 'c' then
    match args with
    | .int n :: args => some (⟨[(n % 256).toNat.toUInt8], none, sp.flags, 0, ch⟩, args)
    | _ => none
  else if ch = ascii 's' then
    match args with
    | .str s :: args =>
      (strChars (s.getD nullString) sp.prec).map fun cp => (⟨cp, none, sp.flags, 0, ch⟩, args)
    | _ => none
  else if ch ∈ [ascii 'n', ascii 'p', ascii 'e', ascii 'E', ascii 'f', ascii 'g', ascii 'G',
      ascii 'L'] then none
  else if ch ∉ [ascii 'D', ascii 'd', ascii 'i', ascii 'O', ascii 'o', ascii 'U', ascii 'u',
      ascii 'X', ascii 'x'] then some (⟨[ch], none, sp.flags, 0, ch⟩, args)
  else
    match args with
    | .int n :: args =>
      if ch = ascii 'D' then some (convSigned sp.long ch n, args)
      else if ch = ascii 'd' then some (convSigned sp ch n, args)
      else if ch = ascii 'i' then some (convSigned sp ch n, args)
      else if ch = ascii 'O' then some (convUnsigned sp.long ch .oct n, args)
      else if ch = ascii 'o' then some (convUnsigned sp ch .oct n, args)
      else if ch = ascii 'U' then some (convUnsigned sp.long ch .dec n, args)
      else if ch = ascii 'u' then some (convUnsigned sp ch .dec n, args)
      else some (convUnsigned sp ch .hex n, args)
    | _ => none

/-- The vectors that wait, and what `__sprint` has written. -/
structure Uio where
  iov : List (List Byte)
  out : List Byte
  deriving DecidableEq, Repr

namespace Uio

def flush (u : Uio) : Uio := ⟨[], u.out ++ u.iov.flatten⟩

def print (s : List Byte) (u : Uio) : Uio :=
  let u := { u with iov := u.iov ++ [s] }
  if u.iov.length ≥ 8 then u.flush else u

def padLoop (c : Byte) (n : Nat) (u : Uio) : Uio :=
  if n > 16 then padLoop c (n - 16) (u.print (List.replicate 16 c))
  else u.print (List.replicate n c)
termination_by n

def pad (howmany : Int) (c : Byte) (u : Uio) : Uio :=
  if howmany > 0 then padLoop c howmany.toNat u else u

end Uio

namespace Conv

def fieldsz (c : Conv) : Int :=
  c.cp.length + if c.sign.isSome then 1 else if c.flags.hexprefix then 2 else 0

def realsz (c : Conv) : Int := if c.dprec > c.fieldsz then c.dprec else c.fieldsz

def ox (c : Conv) : List Byte :=
  match c.sign with
  | some sign => [sign]
  | none => if c.flags.hexprefix then [ascii '0', c.ch] else []

/-- One conversion, up to its `FLUSH`. -/
def emit (c : Conv) (width : Int) (u : Uio) : Uio :=
  let u := if !c.flags.ladjust && !c.flags.zeropad then u.pad (width - c.realsz) (ascii ' ') else u
  let u := if c.ox = [] then u else u.print c.ox
  let u := if !c.flags.ladjust && c.flags.zeropad then u.pad (width - c.realsz) (ascii '0') else u
  let u := u.pad (c.dprec - c.fieldsz) (ascii '0')
  let u := u.print c.cp
  let u := if c.flags.ladjust then u.pad (width - c.realsz) (ascii ' ') else u
  u.flush

end Conv

/-- The loop over the conversions, with `ret`. -/
def loop : Nat → List Byte → List Arg → Int → Uio → Option (List Byte × Int)
  | 0, _, _, _, _ => none
  | n + 1, fmt, args, ret, u =>
    let text := fmt.takeWhile (· ≠ ascii '%')
    let u := if text = [] then u else u.print text
    let ret := ret + text.length
    if !fits ret then none
    else
      match fmt.dropWhile (· ≠ ascii '%') with
      | [] => some (u.flush.out, ret)
      | _ :: fmt =>
        match scan (fmt.length + 1) fmt args Spec.start with
        | none => none
        | some (sp, ch, fmt, args) =>
          if ch = 0 then some (u.flush.out, ret)
          else
            match convert sp ch args with
            | none => none
            | some (c, args) =>
              let ret := ret + if sp.width > c.realsz then sp.width else c.realsz
              if !fits ret then none else loop n fmt args ret (c.emit sp.width u)

def vfprintf (fmt : List Byte) (args : List Arg) : Option (List Byte × Int) :=
  loop (fmt.length + 1) fmt args 0 ⟨[], []⟩

end Bsdi.Printf
