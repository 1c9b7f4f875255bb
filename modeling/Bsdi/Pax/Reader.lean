import Bsdi.Pax.Buffer

/-!
# Reading an archive

The input side of `buf_subs.c` and the functions of `ar_io.c` under it: the buffer is filled from
the archive device, volume after volume. The device is known by how much each `read` gives and by
  the
volumes that `ar_next` opens.
-/

namespace Bsdi.Pax

open Lib

/-- `artyp`; block and character devices are handled alike. -/
inductive Artyp
  | tape
  | reg
  | dev
  | pipe
  deriving DecidableEq

/-- A volume, with the block sizes `ar_open` chooses for it. -/
structure Volume where
  artyp : Artyp
  data : List Byte
  blksz : Nat
  rdblksz : Nat
  /-- The size of the physical blocks of a tape. -/
  phys : Nat
  blksz_pos : 0 < blksz
  rdblksz_pos : 0 < rdblksz
  phys_pos : 0 < phys

/-- The buffer and the device. Offsets in the buffer count from `buf`. -/
structure Reader where
  mem : Nat → Byte
  bufpt : Nat
  bufend : Nat
  blksz : Nat
  rdblksz : Nat
  rdcnt : Int
  vol : Volume
  /-- The offset in the volume. -/
  pos : Nat
  arvol : Nat
  lstrval : Int
  /-- The volumes that can still be opened. -/
  later : List Volume
  /-- The static variable of `buf_fill`. -/
  fini : Bool
  exitVal : Nat
  /-- `invld_rec`: a tape had a record whose size is no multiple of `BLKMULT`. -/
  invldRec : Bool
  /-- How much each call of `read` gives at most, or that it fails. -/
  reads : Nat → Option Nat
  nread : Nat

inductive Got
  | bytes (bs : List Byte)
  | eof
  | error
  deriving DecidableEq

def Reader.read (s : Reader) (cnt : Nat) : Got :=
  match s.reads s.nread with
  | none => .error
  | some most =>
    let rest := s.vol.data.drop s.pos
    if rest = [] then .eof else .bytes (rest.take (min (max most 1) cnt))

/-- `ar_read(buf, cnt)`; the bytes are still to be stored. -/
def arRead (s : Reader) (cnt : Nat) : Reader × Got :=
  if s.lstrval < 0 then (s, .error)
  else if s.lstrval = 0 then (s, .eof)
  else
    let got := s.read cnt
    let s := { s with nread := s.nread + 1 }
    match got with
    | .bytes bs =>
      ({ s with
          pos := s.pos + bs.length
          rdblksz := if s.vol.artyp = .tape then bs.length else s.rdblksz
          invldRec := s.invldRec ||
            (s.vol.artyp = .tape && bs.length ≠ s.rdblksz && bs.length % blkmult ≠ 0) }, got)
    | .eof => ({ s with lstrval := 0 }, got)
    | .error => ({ s with lstrval := -1 }, got)

/-- `ar_fow(sksz, skipped)`: how far the archive was moved, unless that failed. -/
def arFow (s : Reader) (sksz : Nat) : Option (Nat × Reader) :=
  if sksz = 0 then some (0, s)
  else if s.lstrval < 0 then none
  else if s.lstrval = 0 then some (0, s)
  else if s.vol.artyp = .reg then
    if s.vol.data.length < s.pos + sksz then
      some (s.vol.data.length - s.pos, { s with pos := s.vol.data.length })
    else some (sksz, { s with pos := s.pos + sksz })
  else some (0, s)

/-- `ar_next` opens the volume `v`. -/
def Reader.opened (s : Reader) (v : Volume) (later : List Volume) : Reader :=
  { s with
    vol := v
    pos := 0
    blksz := v.blksz
    rdblksz := v.rdblksz
    arvol := s.arvol + 1
    lstrval := 1
    invldRec := false
    rdcnt := 0
    later := later }

/-- One turn of the loop of `buf_fill`, up to the end of the volume. -/
def fillOnce (s : Reader) : Reader × Got :=
  match arRead s s.blksz with
  | (s, .bytes bs) =>
    ({ s with
        mem := store s.mem 0 bs
        bufpt := 0
        bufend := bs.length
        rdcnt := s.rdcnt + bs.length }, .bytes bs)
  | (s, .eof) => (s, .eof)
  | (s, .error) => ({ s with exitVal := 1 }, .error)

/-- The loop of `buf_fill`, with the volumes `ar_next` can open. -/
def bufFillLoop : List Volume → Reader → Reader × Got
  | [], s =>
    match fillOnce s with
    | (s, .eof) => ({ s with fini := true, lstrval := -1 }, .eof)
    | r => r
  | v :: later, s =>
    match fillOnce s with
    | (s, .eof) => bufFillLoop later (s.opened v later)
    | r => r

def bufFill (s : Reader) : Reader × Got :=
  if s.fini then (s, .eof) else bufFillLoop s.later s

def Reader.pending (s : Reader) : List Byte := slice s.mem s.bufpt (s.bufend - s.bufpt)

def avail (s : Reader) : Reader × Got :=
  if s.bufpt < s.bufend then (s, .bytes s.pending) else bufFill s

/-- `cnt` bytes of the buffer are taken. -/
def Reader.advance (s : Reader) (cnt : Nat) : Reader := { s with bufpt := s.bufpt + cnt }

/-- The loop of `rd_wrbuf`: what was copied, and what is returned. -/
def rdWrbufLoop : Nat → Reader → Nat → List Byte → Reader × List Byte × Int
  | 0, s, _, copied => (s, copied, 0)
  | fuel + 1, s, incnt, copied =>
    if incnt = 0 then (s, copied, copied.length)
    else
      match avail s with
      | (s, .bytes _) =>
        let cnt := min (s.bufend - s.bufpt) incnt
        rdWrbufLoop fuel (s.advance cnt) (incnt - cnt) (copied ++ slice s.mem s.bufpt cnt)
      | (s, .eof) => (s, copied, copied.length)
      | (s, .error) => (s, copied, if copied = [] then -1 else copied.length)

/-- `rd_wrbuf(in, cpcnt)`: also what was copied. -/
def rdWrbuf (s : Reader) (cpcnt : Nat) : Reader × List Byte × Int :=
  rdWrbufLoop (cpcnt + 1) s cpcnt []

/-- The loop at the end of `rd_skip`. -/
def rdSkipLoop : Nat → Reader → Nat → Reader × Int
  | 0, s, _ => (s, -1)
  | fuel + 1, s, res =>
    if res = 0 then (s, 0)
    else
      match avail s with
      | (s, .bytes _) =>
        let cnt := min (s.bufend - s.bufpt) res
        rdSkipLoop fuel (s.advance cnt) (res - cnt)
      | (s, .eof) => (s, 1)
      | (s, .error) => (s, -1)

def rdSkip (s : Reader) (skcnt : Nat) : Reader × Int :=
  if skcnt = 0 then (s, 0)
  else
    let res := min (s.bufend - s.bufpt) skcnt
    let s := s.advance res
    let skcnt := skcnt - res
    if skcnt = 0 then (s, 0)
    else
      let res := skcnt % s.rdblksz
      let cnt := skcnt / s.rdblksz * s.rdblksz
      match arFow s cnt with
      | none => (s, -1)
      | some (skipped, s) =>
        let res := res + (cnt - skipped)
        rdSkipLoop (res + 1) { s with rdcnt := s.rdcnt + skipped } res

end Bsdi.Pax
