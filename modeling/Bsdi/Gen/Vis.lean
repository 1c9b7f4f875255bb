import Mathlib.Data.List.Basic

/-!
# Visual encoding of characters

`vis.c` and `unvis.c`. A `char` is its byte; `vis` writes through a pointer and here returns what it
writes before the terminator.
-/

namespace Bsdi.Vis

abbrev Byte := UInt8

structure Flags where
  /-- `VIS_OCTAL`. -/
  octal : Bool
  /-- `VIS_CSTYLE`. -/
  cstyle : Bool
  /-- `VIS_SP`. -/
  sp : Bool
  /-- `VIS_TAB`. -/
  tab : Bool
  /-- `VIS_NL`. -/
  nl : Bool
  /-- `VIS_SAFE`. -/
  safe : Bool
  /-- `VIS_NOSLASH`. -/
  noslash : Bool

/-- `isgraph`. A character with the high bit is none, and is negative as a `char`. -/
def isgraph (c : Byte) : Bool := 33 ≤ c && c ≤ 126

def iscntrl (c : Byte) : Bool := c < 32 || c == 127

def isoctal (c : Byte) : Bool := 48 ≤ c && c ≤ 55

def backslash : Byte := 92

variable (fl : Flags)

def plain (c : Byte) : Bool :=
  isgraph c || (!fl.sp && c == 32) || (!fl.tab && c == 9) || (!fl.nl && c == 10) ||
    (fl.safe && (c == 8 || c == 7 || c == 13))

def letter (c : Byte) : Option Byte :=
  if c = 10 then some 110 -- \n
  else if c = 13 then some 114 -- \r
  else if c = 8 then some 98 -- \b
  else if c = 7 then some 97 -- \a
  else if c = 11 then some 118 -- \v
  else if c = 9 then some 116 -- \t
  else if c = 12 then some 102 -- \f
  else if c = 32 then some 115 -- \s
  else none

/-- The notation of C. The digits after `\0` are for a digit that follows. -/
def cstyle (c nextc : Byte) : Option (List Byte) :=
  match letter c with
  | some l => some [backslash, l]
  | none =>
    if c = 0 then some (if isoctal nextc then [backslash, 48, 48, 48] else [backslash, 48])
    else none

def octal (c : Byte) : List Byte :=
  [backslash, (c >>> 6 &&& 7) + 48, (c >>> 3 &&& 7) + 48, (c &&& 7) + 48]

/-- `M` for the high bit, then `^` for a control character and `-` for another. -/
def caret (c : Byte) : List Byte :=
  (if c &&& 0x80 ≠ 0 then [77] else []) ++
    let c := c &&& 0x7f
    if iscntrl c then [94, if c = 0x7f then 63 else c + 64] else [45, c]

def vis (c nextc : Byte) : List Byte :=
  if plain fl c then
    if c = backslash ∧ fl.noslash = false then [c, backslash] else [c]
  else
    match if fl.cstyle then cstyle c nextc else none with
    | some seq => seq
    | none =>
      if c &&& 0x7f = 32 ∨ fl.octal = true then octal c
      else (if fl.noslash then [] else [backslash]) ++ caret c

/-- `strvisx`: behind the last character there is a NUL. -/
def strvisx : List Byte → List Byte
  | [] => []
  | [c] => vis fl c 0
  | c :: nextc :: src => vis fl c nextc ++ strvisx (nextc :: src)

/-- `strvis`. The list is the memory up to the terminator or behind it. -/
def strvis : List Byte → List Byte
  | [] => []
  | c :: src => if c = 0 then [] else vis fl c (src.headD 0) ++ strvis src

inductive State
  | ground
  /-- Behind a backslash. -/
  | start
  /-- Behind `\M`. -/
  | metaStart
  /-- Behind `\M-`. -/
  | meta1
  | ctrl
  | octal2
  | octal3
  deriving DecidableEq

/-- The return codes of `unvis`; `more` is 0. -/
inductive Code
  | more
  | valid
  | validpush
  | nochar
  | synbad
  deriving DecidableEq

def special (c : Byte) : Option Byte :=
  if c = backslash then some c
  else if c = 110 then some 10 -- \n
  else if c = 114 then some 13 -- \r
  else if c = 98 then some 8 -- \b
  else if c = 97 then some 7 -- \a
  else if c = 118 then some 11 -- \v
  else if c = 116 then some 9 -- \t
  else if c = 102 then some 12 -- \f
  else if c = 115 then some 32 -- \s
  else if c = 69 then some 27 -- \E
  else none

/-- The case `S_START` of `unvis`. -/
def unvisStart (cp c : Byte) : Byte × State × Code :=
  match special c with
  | some b => (b, .ground, .valid)
  | none =>
    if isoctal c then (c - 48, .octal2, .more)
    else if c = 77 then (0x80, .metaStart, .more)
    else if c = 94 then (cp, .ctrl, .more)
    else if c = 10 ∨ c = 36 then (cp, .ground, .nochar)
    else (cp, .ground, .synbad)

/-- `unvis`, with the byte at `cp`. -/
def unvis (cp c : Byte) : State → Byte × State × Code
  | .ground => if c = backslash then (0, .start, .more) else (c, .ground, .valid)
  | .start => unvisStart cp c
  | .metaStart =>
    if c = 45 then (cp, .meta1, .more)
    else if c = 94 then (cp, .ctrl, .more)
    else (cp, .ground, .synbad)
  | .meta1 => (cp ||| c, .ground, .valid)
  | .ctrl => (if c = 63 then cp ||| 0x7f else cp ||| (c &&& 0x1f), .ground, .valid)
  | .octal2 =>
    if isoctal c then ((cp <<< 3) + (c - 48), .octal3, .more) else (cp, .ground, .validpush)
  | .octal3 =>
    if isoctal c then ((cp <<< 3) + (c - 48), .ground, .valid) else (cp, .ground, .validpush)

/-- `unvis` with `UNVIS_END`. -/
def unvisEnd : State → Code
  | .octal2 | .octal3 => .valid
  | .ground => .nochar
  | _ => .synbad

/-- The variables of `strunvis`: what is written, the byte at `dst`, and the state. -/
structure Decoder where
  out : List Byte
  cp : Byte
  state : State

/-- `dst++`. `mem` is what the memory held before. -/
def Decoder.push (mem : Nat → Byte) (d : Decoder) : Decoder :=
  { d with out := d.out ++ [d.cp], cp := mem (d.out.length + 1) }

/-- The turn of `strunvis` for a character, with the jump to `again`. -/
def again (mem : Nat → Byte) (c : Byte) : Nat → Decoder → Option Decoder
  | 0, _ => none
  | tries + 1, d =>
    match unvis d.cp c d.state with
    | (cp, state, .valid) => some (Decoder.push mem ⟨d.out, cp, state⟩)
    | (cp, state, .validpush) => again mem c tries (Decoder.push mem ⟨d.out, cp, state⟩)
    | (cp, state, .more) => some ⟨d.out, cp, state⟩
    | (cp, state, .nochar) => some ⟨d.out, cp, state⟩
    | (_, _, .synbad) => none

/-- The loop of `strunvis`. A character is pushed back once. -/
def decode (mem : Nat → Byte) : List Byte → Decoder → Option Decoder
  | [], d => some d
  | c :: src, d => if c = 0 then some d else (again mem c 2 d).bind (decode mem src)

/-- What `strunvis` writes before the terminator, or `none` for -1. -/
def strunvis (mem : Nat → Byte) (src : List Byte) : Option (List Byte) :=
  (decode mem src ⟨[], mem 0, .ground⟩).map fun d =>
    if unvisEnd d.state = .valid then d.out ++ [d.cp] else d.out

end Bsdi.Vis
