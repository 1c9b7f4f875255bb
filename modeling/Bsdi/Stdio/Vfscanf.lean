import Bsdi.Stdio.Reading
import Bsdi.Stdlib.Strtol

/-!
# Scanning of integers and of scansets

The conversions of integers in `vfscanf.c`, from the test for input on, and `__sccl`. `int` and
`size_t` have 32 bits.

A loop of the source stops when its count of turns is used up, and then there is no result.
-/

namespace Bsdi.Scanf

open Bsdi.Stdio
open Bsdi.Stdlib hiding Byte

/-- `BUF`. -/
def bufSize : Nat := 513

inductive Conversion
  | d | i | o | u | x
  deriving DecidableEq

namespace Conversion

def base : Conversion → Nat
  | d | u => 10
  | i => 0
  | o => 8
  | x => 16

/-- Whether the conversion function is `strtoul`. -/
def isStrtoul : Conversion → Bool
  | d | i => false
  | o | u | x => true

end Conversion

/-- A conversion with its modifiers and the number that was written for its width. -/
structure Directive where
  suppress : Bool
  short : Bool
  long : Bool
  quad : Bool
  width : Nat
  conversion : Conversion

namespace Directive

variable (v : Directive)

/-- `width`, as it is cut to the buffer. -/
def limit : Nat :=
  let width := v.width % 2 ^ 32
  if width = 0 ∨ bufSize - 1 < width then bufSize - 1 else width

def ccfn (base : Nat) (buf : List Byte) : Int :=
  if v.quad then
    if v.conversion.isStrtoul then (strtouq base buf).value else (strtoq base buf).value
  else if v.conversion.isStrtoul then (strtoul base buf).value else (strtol base buf).value

def bits : Nat :=
  if v.quad then 64 else if v.short then 16 else if v.long then 32 else 32

def store (res : Int) : Option Int :=
  if v.suppress then none else some (res.bmod (2 ^ v.bits))

end Directive

structure Flags where
  base : Nat
  signok : Bool
  ndigits : Bool
  nzdigits : Bool
  pfxok : Bool
  deriving DecidableEq

def basefix (base : Nat) : Nat := if base = 0 then 10 else base

def Flags.digit (f : Flags) (base : Nat) : Flags :=
  { f with base := base, signok := false, pfxok := false, ndigits := false }

/-- The switch on a character that has `n` others before it: the flags if it is legal. -/
def legal (n : Nat) (c : Byte) (f : Flags) : Option Flags :=
  if c = 48 then
    let f := if f.base = 0 then { f with base := 8, pfxok := true } else f
    if f.nzdigits then some { f with signok := false, nzdigits := false, ndigits := false }
    else some (f.digit f.base)
  else if 49 ≤ c ∧ c ≤ 55 then some (f.digit (basefix f.base))
  else if c = 56 ∨ c = 57 then
    if basefix f.base ≤ 8 then none else some (f.digit (basefix f.base))
  else if (65 ≤ c ∧ c ≤ 70) ∨ (97 ≤ c ∧ c ≤ 102) then
    if f.base ≤ 10 then none else some (f.digit f.base)
  else if c = 43 ∨ c = 45 then
    if f.signok then some { f with signok := false } else none
  else if c = 120 ∨ c = 88 then
    if f.pfxok ∧ n = 1 then some { f with base := 16, pfxok := false } else none
  else none

def Conversion.flags (c : Conversion) : Flags where
  base := c.base
  signok := true
  ndigits := true
  nzdigits := true
  pfxok := c = .x

section

variable (file : List Byte) (dev : Reader)

def next (s : Istream) : Bool × Istream :=
  if 1 < s.avail then (true, s.advance 1) else s.srefill file dev

/-- `nread` after so many characters more. -/
def count (nread : Int) (n : Nat) : Int := (nread + n).bmod (2 ^ 32)

def skip : Nat → Int → Istream → Option (Bool × Int × Istream)
  | 0, _, _ => none
  | k + 1, nread, s => do
    let c ← (← s.load 1).head?
    if isspace c then
      match next file dev s with
      | (true, s) => skip k (count nread 1) s
      | (false, s) => some (false, count nread 1, s)
    else some (true, nread, s)

def collect : (width : Nat) → List Byte → Flags → Istream → Option (List Byte × Flags × Istream)
  | 0, buf, f, s => some (buf, f, s)
  | width + 1, buf, f, s => do
    let c ← (← s.load 1).head?
    match legal buf.length c f with
    | none => some (buf, f, s)
    | some f =>
      match next file dev s with
      | (true, s) => collect width (buf ++ [c]) f s
      | (false, s) => some (buf ++ [c], f, s)

inductive Outcome
  | inputFailure
  | matchFailure
  | converted (stored : Option Int)
  deriving DecidableEq

def convert (v : Directive) (buf : List Byte) (f : Flags) (nread : Int) (s : Istream) :
    Outcome × Int × Istream :=
  match buf.getLast? with
  | none => (.matchFailure, nread, s)
  | some c =>
    if f.ndigits then (.matchFailure, nread, s.ungetc c)
    else if c = 120 ∨ c = 88 then
      (.converted (v.store (v.ccfn f.base buf.dropLast)), count nread buf.dropLast.length,
        s.ungetc c)
    else (.converted (v.store (v.ccfn f.base buf)), count nread buf.length, s)

/-- A conversion of an integer. The loop over white space has at most `turns` turns. -/
def scanInt (turns : Nat) (v : Directive) (nread : Int) (s : Istream) :
    Option (Outcome × Int × Istream) := do
  let (ok, s) := if 0 < s.avail then (true, s) else s.srefill file dev
  if !ok then return (.inputFailure, nread, s)
  let (ok, nread, s) ← skip file dev turns nread s
  if !ok then return (.inputFailure, nread, s)
  let (buf, f, s) ← collect file dev v.limit [] v.conversion.flags s
  return convert v buf f nread s

end

/-- The characters that the loop of `__sccl` stores at, with those of the range from `c` to `n`. -/
def fillRange (c n : Nat) : List Nat := (List.range' (c + 1) (max 1 (n - c)))

/-- The loop of `__sccl` at the `doswitch`, behind the character `c`: where it stores, and what
follows the scanset. The null at the end of the format is not part of it. -/
def doswitch : (c : Nat) → List Byte → List Nat × List Byte
  | _, [] => ([], [])
  | c, n :: fmt =>
    if n = 45 then
      match fmt with
      | [] => ([45], [])
      | n :: rest =>
        if n = 93 ∨ n.toNat < c then
          ((45 :: (doswitch 45 (n :: rest)).1), (doswitch 45 (n :: rest)).2)
        else (fillRange c n.toNat ++ (doswitch (max (c + 1) n.toNat) rest).1,
          (doswitch (max (c + 1) n.toNat) rest).2)
    else if n = 93 then ([], fmt)
    else (n.toNat :: (doswitch n.toNat fmt).1, (doswitch n.toNat fmt).2)
termination_by _ fmt => fmt.length

/-- `__sccl`: whether the scanset is negated, where the table is changed, and what follows the
scanset. -/
def sccl (fmt : List Byte) : Bool × List Nat × List Byte :=
  let (negated, fmt) := if fmt.head? = some 94 then (true, fmt.tail) else (false, fmt)
  match fmt with
  | [] => (negated, [], [])
  | c :: fmt => (negated, c.toNat :: (doswitch c.toNat fmt).1, (doswitch c.toNat fmt).2)

def accepts (fmt : List Byte) (c : Byte) : Bool :=
  if c.toNat ∈ (sccl fmt).2.1 then !(sccl fmt).1 else (sccl fmt).1

end Bsdi.Scanf
