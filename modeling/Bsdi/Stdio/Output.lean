import Bsdi.Lib.Memory

/-!
# Output streams

`putc`, `__swbuf`, `__sfvwrite`, `fflush` and `__swsetup` for a stream that is only written.
Pointers into the buffer are offsets from `_bf._base`. The write function answers each call with how
many of the bytes it took, or with a failure. A loop whose count of turns is used up has no result.
-/

namespace Bsdi.Stdio

open Bsdi.Lib

abbrev Byte := UInt8

/-- `__SNBF`, `__SLBF` or neither. -/
inductive Mode
  | nbf | lbf | fbf
  deriving DecidableEq, Repr

/-- The fields of a `FILE` that is only written. While `_bf._base` is null (`base` is false), `mode`
and `size` are those that `__smakebuf` will find. -/
structure Stream where
  base : Bool
  size : Nat
  mode : Mode
  /-- `__SSTR`: a string of `snprintf`. -/
  str : Bool
  /-- `__SERR`. -/
  err : Bool
  p : Nat
  w : Int
  lbfsize : Int
  mem : Nat → Byte
  /-- How often the write function was called. -/
  calls : Nat
  /-- The bytes that it took. -/
  out : List Byte

abbrev Device := Nat → Nat → Int

def Accepts (dev : Device) : Prop := ∀ k n, 0 < n → 0 < dev k n ∧ dev k n ≤ n

def newline : Byte := 10

def bufsiz : Nat := 1024

namespace Stream

/-- A call of `_write`. -/
def write (dev : Device) (s : Stream) (bytes : List Byte) : Int × Stream :=
  let t := dev s.calls bytes.length
  (t, { s with calls := s.calls + 1, out := s.out ++ bytes.take t.toNat })

/-- `__swsetup`, of a stream with `__SWR`. -/
def swsetup (s : Stream) : Stream :=
  match s.mode with
  | .lbf => { s with base := true, w := 0, lbfsize := -s.size }
  | .nbf => { s with base := true, w := 0 }
  | .fbf => { s with base := true, w := s.size }

/-- `cantwrite`, which makes the buffer where there is none. -/
def ready (s : Stream) : Stream := if s.base then s else s.swsetup

/-- The loop of `__sflush`: whether it failed, and the stream. -/
def flushLoop (dev : Device) : Nat → (p n : Nat) → Stream → Bool × Stream
  | 0, _, _, s => (false, s)
  | k + 1, p, n, s =>
    if n = 0 then (false, s)
    else
      let (t, s) := s.write dev (slice s.mem p n)
      if t ≤ 0 then (true, { s with err := true }) else flushLoop dev k (p + t.toNat) (n - t.toNat) s

def sflush (dev : Device) (s : Stream) : Bool × Stream :=
  if s.base then
    flushLoop dev s.p 0 s.p { s with p := 0, w := if s.mode = .fbf then s.size else 0 }
  else (false, s)

/-- `*fp->_p++ = c`. -/
def push (s : Stream) (c : Byte) : Stream := { s with mem := store s.mem s.p [c], p := s.p + 1 }

/-- The end of `__swbuf`, where there is room for the character. -/
def swbufEnd (dev : Device) (c : Byte) (s : Stream) : Bool × Stream :=
  let s := push { s with w := s.w - 1 } c
  if s.p = s.size ∨ (s.mode = .lbf ∧ c = newline) then s.sflush dev else (false, s)

def swbuf (dev : Device) (c : Byte) (s : Stream) : Bool × Stream :=
  let s := ready { s with w := s.lbfsize }
  if s.size ≤ s.p then
    match s.sflush dev with
    | (true, s) => (true, s)
    | (false, s) => s.swbufEnd dev c
  else s.swbufEnd dev c

def putc (dev : Device) (c : Byte) (s : Stream) : Bool × Stream :=
  let s := { s with w := s.w - 1 }
  if 0 ≤ s.w ∨ (s.lbfsize ≤ s.w ∧ c ≠ newline) then (false, s.push c) else s.swbuf dev c

/-- `COPY`, with `_p` moved behind the bytes. -/
def copy (s : Stream) (bytes : List Byte) : Stream :=
  { s with mem := store s.mem s.p bytes, p := s.p + bytes.length }

/-- `GETIOV`: the first piece that is not empty. -/
def getiov (iov : List (List Byte)) : List (List Byte) := iov.dropWhile (·.isEmpty)

/-- `uio_resid`. -/
def resid (iov : List (List Byte)) : Nat := iov.flatten.length

def fail (s : Stream) : Option (Bool × Stream) := some (true, { s with err := true })

def nbfLoop (dev : Device) : Nat → List (List Byte) → Stream → Option (Bool × Stream)
  | 0, _, _ => none
  | k + 1, iov, s =>
    match getiov iov with
    | [] => none
    | p :: iov =>
      let (w, s) := s.write dev (p.take (min p.length bufsiz))
      if w ≤ 0 then s.fail
      else
        let iov := p.drop w.toNat :: iov
        if resid iov = 0 then some (false, s) else nbfLoop dev k iov s

/-- One turn of the loop for a stream with a full buffer: how many bytes of the piece it deals with,
and the stream, or nothing after a failure. -/
def fbfTurn (dev : Device) (p : List Byte) (s : Stream) : Option Nat × Stream :=
  if s.str then
    let w := min p.length s.w.toNat
    (some p.length, { s.copy (p.take w) with w := s.w - w })
  else if 0 < s.p ∧ s.w < p.length then
    let (failed, s') := (s.copy (p.take s.w.toNat)).sflush dev
    (if failed then none else some s.w.toNat, s')
  else if s.size ≤ p.length then
    let (w, s) := s.write dev (p.take s.size)
    (if w ≤ 0 then none else some w.toNat, s)
  else (some p.length, { s.copy p with w := s.w - p.length })

def fbfLoop (dev : Device) : Nat → List (List Byte) → Stream → Option (Bool × Stream)
  | 0, _, _ => none
  | k + 1, iov, s =>
    match getiov iov with
    | [] => none
    | p :: iov =>
      match s.fbfTurn dev p with
      | (none, s) => s.fail
      | (some w, s) =>
        let iov := p.drop w :: iov
        if resid iov = 0 then some (false, s) else fbfLoop dev k iov s

def newlineDistance (p : List Byte) : Nat :=
  match p.idxOf? newline with
  | some i => i + 1
  | none => p.length + 1

/-- One turn for a stream with a line buffer, with `s = MIN(len, nldist)` bytes to deal with. -/
def lbfTurn (dev : Device) (p : List Byte) (n : Nat) (s : Stream) : Option Nat × Stream :=
  let w := s.w + s.size
  if 0 < s.p ∧ w < n then
    let (failed, s') := (s.copy (p.take w.toNat)).sflush dev
    (if failed then none else some w.toNat, s')
  else if s.size ≤ n then
    let (w, s) := s.write dev (p.take s.size)
    (if w ≤ 0 then none else some w.toNat, s)
  else (some n, { s.copy (p.take n) with w := s.w - n })

/-- The loop for a stream with a line buffer; `nldist` is nothing where `nlknown` is 0. -/
def lbfLoop (dev : Device) : Nat → Option Nat → List (List Byte) → Stream → Option (Bool × Stream)
  | 0, _, _, _ => none
  | k + 1, known, iov, s =>
    let known := if (iov.headD []).isEmpty then none else known
    match getiov iov with
    | [] => none
    | p :: iov =>
      let nldist := known.getD (newlineDistance p)
      match s.lbfTurn dev p (min p.length nldist) with
      | (none, s) => s.fail
      | (some w, s) =>
        -- The newline was copied: flush and forget.
        let (failed, s) := if nldist - w = 0 then s.sflush dev else (false, s)
        if failed then s.fail
        else
          let known := if nldist - w = 0 then none else some (nldist - w)
          let iov := p.drop w :: iov
          if resid iov = 0 then some (false, s) else lbfLoop dev k known iov s

/-- `__sfvwrite`, for at most `k` turns of its loop. -/
def sfvwrite (dev : Device) (k : Nat) (iov : List (List Byte)) (s : Stream) :
    Option (Bool × Stream) :=
  if resid iov = 0 then some (false, s)
  else
    let s := s.ready
    match s.mode with
    | .nbf => nbfLoop dev k iov s
    | .fbf => fbfLoop dev k iov s
    | .lbf => lbfLoop dev k none iov s

end Stream

inductive Op
  | putc (c : Byte)
  | sfvwrite (iov : List (List Byte))
  | fflush

def Op.bytes : Op → List Byte
  | .putc c => [c]
  | .sfvwrite iov => iov.flatten
  | .fflush => []

def Stream.step (dev : Device) (s : Stream) : Op → Option (Bool × Stream)
  | .putc c => some (s.putc dev c)
  | .sfvwrite iov => s.sfvwrite dev (2 * Stream.resid iov + 2) iov
  | .fflush => some (s.sflush dev)

end Bsdi.Stdio
