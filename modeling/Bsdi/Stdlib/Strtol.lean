import Mathlib.Data.List.TakeDrop
import Mathlib.Tactic.Ring

/-!
# Integers from strings

`strtol.c`, `strtoul.c`, `strtoq.c` and `strtouq.c`. A string is the list of its characters before
the NUL; a `long` has 32 bits and a `quad_t` has 64. The four functions differ in the limits and in
what they do with the sign.
-/

namespace Bsdi.Stdlib

abbrev Byte := UInt8

def isspace (c : Byte) : Bool := c == 32 || (9 ≤ c && c ≤ 13)

def isdigit (c : Byte) : Bool := 48 ≤ c && c ≤ 57

def isupper (c : Byte) : Bool := 65 ≤ c && c ≤ 90

def isalpha (c : Byte) : Bool := isupper c || (97 ≤ c && c ≤ 122)

def digit (c : Byte) : Option Nat :=
  if isdigit c then some (c.toNat - 48)
  else if isalpha c then some (if isupper c then c.toNat - 55 else c.toNat - 87)
  else none

/-- A type of integers: its width, the largest number after either sign, and what is made of the
accumulator. -/
structure Limits where
  width : Nat
  /-- The legal value that is largest, if there was a minus sign or not. -/
  largest : Bool → Nat
  /-- What is returned instead of a number that is too big. -/
  extreme : Bool → Int
  /-- The value of the accumulator as a number of the type. -/
  value : Nat → Int

/-- `LONG_MIN` to `LONG_MAX`, or `QUAD_MIN` to `QUAD_MAX`. -/
def signed (width : Nat) : Limits where
  width := width
  largest neg := if neg then 2 ^ (width - 1) else 2 ^ (width - 1) - 1
  extreme neg := if neg then -2 ^ (width - 1) else 2 ^ (width - 1) - 1
  value acc := if acc < 2 ^ (width - 1) then acc else acc - 2 ^ width

/-- 0 to `ULONG_MAX` or `UQUAD_MAX`. -/
def unsigned (width : Nat) : Limits where
  width := width
  largest _ := 2 ^ width - 1
  extreme _ := 2 ^ width - 1
  value acc := acc

/-- What is returned, whether `errno` is set to `ERANGE`, and how far `*endptr` is behind `nptr`. -/
structure Result where
  value : Int
  erange : Bool
  endptr : Nat
  deriving DecidableEq

def sign : List Byte → Bool × List Byte
  | [] => (false, [])
  | c :: s => if c = 45 then (true, s) else if c = 43 then (false, s) else (false, c :: s)

/-- A zero and an `x`. -/
def hexPrefix : List Byte → Bool
  | c :: x :: _ => c == 48 && (x == 120 || x == 88)
  | _ => false

def detect (base : Nat) (s : List Byte) : Nat × List Byte :=
  if (base = 0 ∨ base = 16) ∧ hexPrefix s = true then (16, s.drop 2)
  else if base = 0 then (if s.head? = some 48 then 8 else 10, s)
  else (base, s)

structure Scan where
  acc : Nat
  any : Int
  s : List Byte

/-- The loop over the digits. `any` is negative when there were too many. -/
def scan (width base cutoff cutlim : Nat) : Nat → Int → List Byte → Scan
  | acc, any, [] => ⟨acc, any, []⟩
  | acc, any, c :: s =>
    match digit c with
    | none => ⟨acc, any, c :: s⟩
    | some d =>
      if base ≤ d then ⟨acc, any, c :: s⟩
      else if any < 0 ∨ cutoff < acc ∨ (acc = cutoff ∧ cutlim < d) then
        scan width base cutoff cutlim acc (-1) s
      else scan width base cutoff cutlim ((acc * base + d) % 2 ^ width) 1 s

def convert (lim : Limits) (base : Nat) (nptr : List Byte) : Result :=
  let (neg, s) := sign (nptr.dropWhile isspace)
  let (base, s) := detect base s
  let cutoff := lim.largest neg / base
  let cutlim := lim.largest neg % base
  let r := scan lim.width base cutoff cutlim 0 0 s
  let acc := if neg then (2 ^ lim.width - r.acc) % 2 ^ lim.width else r.acc
  { value := if r.any < 0 then lim.extreme neg else lim.value acc
    erange := decide (r.any < 0)
    endptr := if r.any = 0 then 0 else nptr.length - r.s.length }

def strtol (base : Nat) (nptr : List Byte) : Result := convert (signed 32) base nptr

def strtoul (base : Nat) (nptr : List Byte) : Result := convert (unsigned 32) base nptr

def strtoq (base : Nat) (nptr : List Byte) : Result := convert (signed 64) base nptr

def strtouq (base : Nat) (nptr : List Byte) : Result := convert (unsigned 64) base nptr

end Bsdi.Stdlib
