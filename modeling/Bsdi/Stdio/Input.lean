import Bsdi.Stdio.Output
import Mathlib.Tactic.Ring

/-!
# Input streams

`getc`, `fread`, `fgetln`, `ungetc`, `ftell` and `fseek` for a stream that is only read, on a
regular file. Pointers into a buffer are offsets in it, so a null pointer is minus the address of
the buffer. A load from outside the buffer has no result, and neither has a loop whose count of
turns is used up.
-/

namespace Bsdi.Stdio

open Bsdi.Lib

/-- The buffer of `ungetc`, with `_p` and `_r` while there is one. -/
structure Ub where
  mem : Nat → Byte
  size : Nat
  p : Nat
  r : Nat

/-- The fields of a `FILE` that is only read, and of its file. -/
structure Istream where
  /-- Whether `_bf._base` is not null; if it is null, `__smakebuf` will find `addr` and `size`. -/
  base : Bool
  addr : Nat
  size : Nat
  /-- `__SNBF`. -/
  nbf : Bool
  /-- `__SNPT`. -/
  npt : Bool
  blksize : Nat
  mem : Nat → Byte
  /-- `_p`, or `_up` while there is a buffer of `ungetc`. -/
  p : Int
  /-- `_r`, or `_ur` while there is a buffer of `ungetc`. -/
  r : Int
  ub : Option Ub
  /-- `__SEOF`. -/
  eof : Bool
  smod : Bool
  soff : Bool
  offset : Int
  /-- The offset of the file that the kernel has. -/
  koff : Nat
  /-- How often `read` was called. -/
  calls : Nat

inductive Whence
  | set | cur | fromEnd
  deriving DecidableEq

def ubufSize : Nat := 3

abbrev Reader := Nat → Nat → Nat

def Delivers (dev : Reader) : Prop := ∀ k n, 0 < n → 0 < dev k n ∧ dev k n ≤ n

namespace Istream

variable (file : List Byte) (dev : Reader)

/-- `_r`. -/
def avail (s : Istream) : Int :=
  match s.ub with
  | some u => u.r
  | none => s.r

/-- The bytes from `_p` on. -/
def load (n : Nat) (s : Istream) : Option (List Byte) :=
  match s.ub with
  | some u => some (slice u.mem u.p n)
  | none => if 0 < n ∧ (s.p < 0 ∨ s.size < s.p + n) then none else some (slice s.mem s.p.toNat n)

/-- `_p` and `_r` after so many bytes. -/
def advance (n : Nat) (s : Istream) : Istream :=
  match s.ub with
  | some u => { s with ub := some { u with p := u.p + n, r := u.r - n } }
  | none => { s with p := s.p + n, r := s.r - n }

/-- `__sread` into the buffer: the number of bytes, and the stream. -/
def sread (s : Istream) : Nat × Istream :=
  let m := min s.size (file.length - s.koff)
  let n := if m = 0 then 0 else dev s.calls m
  (n, { s with
    mem := store s.mem 0 ((file.drop s.koff).take n)
    koff := s.koff + n
    offset := s.offset + n
    calls := s.calls + 1 })

/-- `__smakebuf`. While there is a buffer of `ungetc` the pointer that is set is not `_up`; it is
set again before it is used. -/
def smakebuf (s : Istream) : Istream :=
  match s.ub with
  | some _ => { s with base := true }
  | none => { s with base := true, p := 0 }

/-- The part of `__srefill` from the test of `_bf._base` on. -/
def fill (s : Istream) : Bool × Istream :=
  let s := if s.base then s else s.smakebuf
  let (n, s) := { s with p := 0 }.sread file dev
  let s := { s with smod := false, r := n }
  if n = 0 then (false, { s with eof := true }) else (true, s)

/-- `__srefill`: whether there is input now, and the stream. -/
def srefill (s : Istream) : Bool × Istream :=
  if s.eof then
    match s.ub with
    | some u => (false, { s with ub := some { u with r := 0 } })
    | none => (false, { s with r := 0 })
  else
    match s.ub with
    | some _ =>
      let s := { s with ub := none }
      if s.r ≠ 0 then (true, s) else s.fill file dev
    | none => s.fill file dev

/-- `getc` and `__srget`: the character, if there is one. -/
def getc (s : Istream) : Option (Option Byte × Istream) :=
  let (ok, s) := if 0 < s.avail then (true, s) else s.srefill file dev
  if ok then do
    let bytes ← s.load 1
    return (bytes.head?, s.advance 1)
  else some (none, s)

/-- The loop of `fread`: what is left to read, what was read and the stream. -/
def freadLoop : Nat → (resid : Nat) → List Byte → Istream → Option (Nat × List Byte × Istream)
  | 0, _, _, _ => none
  | k + 1, resid, got, s =>
    if s.avail < resid then do
      let n := s.avail.toNat
      let bytes ← s.load n
      let (ok, s) := (s.advance n).srefill file dev
      if ok then freadLoop k (resid - n) (got ++ bytes) s
      else return (resid - n, got ++ bytes, s)
    else do
      let bytes ← s.load resid
      return (0, got ++ bytes, s.advance resid)

/-- `fread`: the number of objects, the bytes and the stream. -/
def fread (size count : Nat) (s : Istream) : Option (Nat × List Byte × Istream) :=
  -- A `size_t`.
  let total := (count * size) % 2 ^ 32
  if total = 0 then some (0, [], s)
  else do
    let (resid, bytes, s) ← freadLoop file dev (total + 2) total [] s
    return (if resid = 0 then count else (total - resid) / size, bytes, s)

/-- `memchr` for a newline: how many characters there are up to it. -/
def lineLength : List Byte → Option Nat
  | [] => none
  | c :: cs => if c = newline then some 1 else (lineLength cs).map (· + 1)

/-- The loop of `fgetln`, after the bytes of the buffer were copied to `line`. -/
def lineLoop : Nat → List Byte → Istream → Option (Option (List Byte) × Istream)
  | 0, _, _ => none
  | k + 1, line, s =>
    let (ok, s) := s.srefill file dev
    if ok then do
      let bytes ← s.load s.avail.toNat
      match lineLength bytes with
      | some len => return (some (line ++ bytes.take len), s.advance len)
      | none => lineLoop k (line ++ bytes) s
    else some (some line, s)

/-- `fgetln`: the line, if there is one. -/
def fgetln (s : Istream) : Option (Option (List Byte) × Istream) :=
  let (ok, s) := if s.avail ≤ 0 then s.srefill file dev else (true, s)
  if ok then do
    let bytes ← s.load s.avail.toNat
    match lineLength bytes with
    | some len => return (some (bytes.take len), { s.advance len with smod := true })
    | none => lineLoop file dev (file.length + 3) bytes s
  else some (none, s)

def submore (u : Ub) : Ub :=
  if u.size = ubufSize then
    { u with
      mem := store u.mem (bufsiz - ubufSize) (slice u.mem 0 ubufSize)
      size := bufsiz
      p := bufsiz - ubufSize }
  else { u with mem := store u.mem u.size (slice u.mem 0 u.size), size := u.size * 2, p := u.size }

/-- `ungetc` of a character. -/
def ungetc (c : Byte) (s : Istream) : Istream :=
  match s.ub with
  | some u =>
    let u := if u.size ≤ u.r then submore u else u
    { s with
      ub := some { u with mem := Function.update u.mem (u.p - 1) c, p := u.p - 1, r := u.r + 1 } }
  | none =>
    let s : Istream := { s with eof := false }
    if s.base ∧ 0 < s.p ∧ s.mem (s.p - 1).toNat = c then { s with p := s.p - 1, r := s.r + 1 }
    else
      let mem : Nat → Byte := Function.update (fun _ => 0) (ubufSize - 1) c
      { s with ub := some { mem, size := ubufSize, p := ubufSize - 1, r := 1 } }

/-- `_offset`, or what `__sseek` finds. -/
def curOffset (s : Istream) : Int × Istream :=
  if s.soff then (s.offset, s) else (s.koff, { s with soff := true, offset := s.koff })

/-- The position, as `__sftell` and `__sfseek` compute it. -/
def sftell (s : Istream) : Int × Istream :=
  let (pos, s) := s.curOffset
  match s.ub with
  | some u => (pos - u.r - s.r, s)
  | none => (pos - s.r, s)

/-- `ftell`, the result of which is a `long`. -/
def ftell (s : Istream) : Int × Istream :=
  let (pos, s) := s.sftell
  (pos.bmod (2 ^ 32), s)

/-- `__sseek` to an offset from the start of the file. -/
def sseek (target : Int) (s : Istream) : Istream :=
  { s with koff := target.toNat, offset := target, soff := true }

/-- The stream without a buffer of `ungetc` and without unread bytes. -/
def discard (s : Istream) : Istream := { s with ub := none, p := 0, r := 0, eof := false }

/-- The end of `__sfseek`, for a `target` from the start of the file. -/
def dumbSeek (target : Int) (s : Istream) : Istream := (s.sseek target).discard

def alignDown (target blksize : Nat) : Nat := target - (target &&& (blksize - 1))

/-- `__sfseek` behind the test of the buffer: the block that has the place is read. -/
def blockSeek (target : Int) (s : Istream) : Istream :=
  let curoff := alignDown target.toNat s.blksize
  let n := target - curoff
  let s := (s.sseek curoff).discard
  if n = 0 then s
  else
    let (ok, s) := s.srefill file dev
    if ok = false ∨ s.r < n then s.dumbSeek target
    else { s with p := s.p + n, r := s.r - n }

/-- How many characters there are in the buffer of `ungetc`. -/
def pushed (s : Istream) : Nat :=
  match s.ub with
  | some u => u.r
  | none => 0

/-- `__sfseek`, for a stream that can be optimised and that is at `curoff`. -/
def optSeek (target curoff : Int) (s : Istream) : Istream :=
  -- The difference of two pointers as a `size_t`.
  let n := s.p % 2 ^ 32
  let curoff := curoff + s.pushed - n
  let n := (n + s.r) % 2 ^ 32
  if s.smod = false ∧ curoff ≤ target ∧ target ≤ curoff + n then
    let o := target - curoff
    { s with
      p := (s.addr + o) % 2 ^ 32 - s.addr, r := (n - o).bmod (2 ^ 32), ub := none, eof := false }
  else s.blockSeek file dev target

def fseek (offset : Int) (whence : Whence) (s : Istream) : Istream :=
  match whence with
  | .cur =>
    let (curoff, s) := s.sftell
    let s := if s.base then s else s.smakebuf
    if s.nbf || s.npt then s.dumbSeek (curoff + offset)
    else s.optSeek file dev (curoff + offset) curoff
  | .set =>
    let s := if s.base then s else s.smakebuf
    if s.nbf || s.npt then s.dumbSeek offset
    else
      let (curoff, s) := s.sftell
      s.optSeek file dev offset curoff
  | .fromEnd =>
    let s := if s.base then s else s.smakebuf
    if s.nbf || s.npt then s.dumbSeek (file.length + offset)
    else
      let (curoff, s) := s.sftell
      s.optSeek file dev (file.length + offset) curoff

end Istream

end Bsdi.Stdio
