import Bsdi.Lib.Memory
import Bsdi.Lib.Ensures
import Mathlib.Logic.Function.Iterate

/-!
# `dd`

`dd.c` and `conv.c`: blocks are read into the input buffer, one of the conversions takes them, and
`dd_out` writes blocks of `obs` bytes. The kernel is known by its answers: what each `read` gives
and how much each `write` takes. Pointers are offsets in their buffer, and an access beyond the end
of it stops the run.
-/

namespace Bsdi.Dd

open Lib

abbrev Byte := UInt8

def newline : Byte := 10

def space : Byte := 32

/-- `cfunc`. -/
inductive Conv
  /-- `def`. -/
  | plain
  | block
  | unblock
  deriving DecidableEq, Repr

/-- What a `write` answers: after it has been interrupted a number of times it takes `room + 1`
bytes, or as many as there are, or it fails. -/
structure Answer where
  interrupts : Nat
  room : Option Nat

/-- What `jcl` and `setup` leave. -/
structure Config where
  /-- `in.dbsz`. -/
  ibs : Nat
  /-- `out.dbsz`. -/
  obs : Nat
  /-- `cbsz`. -/
  cbs : Nat
  ibs_pos : 0 < ibs
  obs_pos : 0 < obs
  cbs_pos : 0 < cbs
  ctab : Option (Byte → Byte)
  cfunc : Conv
  noerror : Bool
  sync : Bool
  swab : Bool
  /-- `C_BS`, which `jcl` turns off for `swab`. -/
  bs : Bool
  bs_swab : bs = true → swab = false
  osync : Bool
  /-- The output is a tape. -/
  tape : Bool
  /-- `cpy_cnt`; 0 for no limit. -/
  count : Nat
  /-- What the writes answer. -/
  device : Nat → Answer
  /-- Whether `*--inp = t[*inp]` decrements before it reads: C leaves that open. -/
  decrements : Bool

inductive Stop
  /-- A read failed, without `noerror`. -/
  | readError
  /-- A write failed, or a tape took less than a block. -/
  | writeError
  /-- An access beyond the end of a buffer. -/
  | outside
  /-- The bound on the turns of a loop is used up. -/
  | fuel
  deriving DecidableEq, Repr

/-- What one `read` gives: at most `ibs` bytes, and none at the end of the input. -/
structure Chunk (ibs : Nat) where
  bytes : List Byte
  le : bytes.length ≤ ibs

/-- `IO`. Offsets count from `db`. -/
structure Io where
  mem : Nat → Byte
  dbp : Nat
  dbcnt : Nat
  dbrcnt : Nat

structure Dd where
  /-- `in`. -/
  inp : Io
  out : Io
  /-- The static `intrunc` of `block`. -/
  intrunc : Bool
  /-- `st.in_full + st.in_part`. -/
  blocks : Nat
  /-- All that has been written. -/
  written : List Byte
  /-- The calls of `write`: what had been written before, and how much is asked for. -/
  calls : List (Nat × Nat)
  /-- How many writes have been answered. -/
  writes : Nat

namespace Config

variable (c : Config)

def inSize : Nat := if c.cfunc = .plain then c.obs + c.ibs - 1 else max c.ibs c.cbs + c.cbs

def outSize : Nat := if c.cfunc = .plain then c.obs + c.ibs - 1 else c.obs + c.cbs

/-- What `sync` fills a block with. -/
def fill : Byte := if c.cfunc = .plain then 0 else space

def table (b : Byte) : Byte := c.ctab.elim b fun t => t b

end Config

/-- An access up to `hi`. -/
def within (hi size : Nat) : Except Stop Unit := if hi ≤ size then .ok () else .error .outside

/-- The inner loop of `dd_out`, for `n` bytes of which `cnt` are left: the offset behind them. -/
def writeLoop (c : Config) (n : Nat) : Nat → Nat → Nat → Dd → Except Stop (Nat × Dd)
  | 0, _, _, _ => .error .fuel
  | fuel + 1, outp, cnt, s => do
    within (outp + cnt) c.outSize
    let answer := c.device s.writes
    let s := { s with
      writes := s.writes + 1
      calls := s.calls ++ List.replicate (answer.interrupts + 1) (s.written.length, cnt) }
    if c.tape ∧ answer.interrupts ≠ 0 then .error .writeError
    else match answer.room with
      | none => .error .writeError
      | some room =>
        let nw := min (room + 1) cnt
        let s := { s with written := s.written ++ slice s.out.mem outp nw }
        if nw = n then .ok (outp + nw, s)
        else if nw = cnt then .ok (outp + nw, s)
        else if c.tape then .error .writeError
        else writeLoop c n fuel (outp + nw) (cnt - nw) s

/-- The outer loop of `dd_out`. -/
def outLoop (c : Config) : Nat → Nat → Nat → Dd → Except Stop Dd
  | 0, _, _, _ => .error .fuel
  | fuel + 1, n, outp, s => do
    let (outp, s) ← writeLoop c n n outp n s
    let s := { s with out := { s.out with dbcnt := s.out.dbcnt - n } }
    if s.out.dbcnt < c.obs then .ok s else outLoop c fuel c.obs outp s

def ddOut (c : Config) (force : Bool) (s : Dd) : Except Stop Dd := do
  let s ← outLoop c (s.out.dbcnt + 1) (if force then s.out.dbcnt else c.obs) 0 s
  let o := s.out
  -- reassemble the output block
  let mem := if o.dbcnt = 0 then o.mem else store o.mem 0 (slice o.mem (o.dbp - o.dbcnt) o.dbcnt)
  .ok { s with out := { o with mem := mem, dbp := o.dbcnt } }

/-- The `n` bytes from `inp` on are translated in place. -/
def translate (c : Config) (mem : Nat → Byte) (inp n : Nat) : Nat → Byte :=
  match c.ctab with
  | none => mem
  | some t => store mem inp ((slice mem inp n).map t)

/-- `def`. -/
def plainConv (c : Config) (s : Dd) : Except Stop Dd := do
  within s.inp.dbp c.inSize
  let mem := translate c s.inp.mem (s.inp.dbp - s.inp.dbrcnt) s.inp.dbrcnt
  let s := { s with
    inp := { s.inp with mem := mem }
    -- make the output buffer look right
    out := { s.out with mem := mem, dbp := s.inp.dbp, dbcnt := s.inp.dbcnt } }
  if c.obs ≤ s.inp.dbcnt then do
    let s ← ddOut c false s
    .ok { s with inp := { s.inp with mem := s.out.mem, dbp := s.out.dbp, dbcnt := s.out.dbcnt } }
  else .ok s

/-- `def_close`. -/
def plainClose (s : Dd) : Dd :=
  let s := { s with out := { s.out with mem := s.inp.mem } }
  if s.inp.dbcnt = 0 then s else { s with out := { s.out with dbcnt := s.inp.dbcnt } }

/-- A loop that goes behind the next newline: what is left of `cnt`, and where it stops. -/
def toss (mem : Nat → Byte) : Nat → Nat → Nat × Nat
  | 0, inp => (0, inp)
  | cnt + 1, inp => if mem inp ≠ newline then toss mem cnt (inp + 1) else (cnt + 1, inp + 1)

/-- The loop of `block` that copies a record of at most `k` bytes: how many it copied, whether
it met the newline, and the output buffer. -/
def copyRecord (f : Byte → Byte) (mem : Nat → Byte) :
    Nat → Nat → Nat → (Nat → Byte) → Nat × Bool × (Nat → Byte)
  | 0, _, _, omem => (0, false, omem)
  | k + 1, inp, outp, omem =>
    if mem inp = newline then (0, true, omem)
    else
      let (cnt, ended, omem) :=
        copyRecord f mem k (inp + 1) (outp + 1) (store omem outp [f (mem inp)])
      (cnt + 1, ended, omem)

/-- When `cnt` bytes of a record have been copied, it is padded, or the rest of its line is tossed:
where the next record begins. -/
def finishRecord (c : Config) (inp cnt : Nat) (ended : Bool) (s : Dd) : Nat × Dd :=
  let left := s.inp.dbcnt - cnt - ended.toNat
  let inp := inp + cnt + ended.toNat
  let dbp := s.out.dbp + c.cbs
  let dbcnt := s.out.dbcnt + c.cbs
  if cnt < c.cbs then
    let pad := List.replicate (c.cbs - cnt) (c.table space)
    let mem := store s.out.mem (s.out.dbp + cnt) pad
    (inp, { s with
      inp := { s.inp with dbcnt := left }
      out := { s.out with mem := mem, dbp := dbp, dbcnt := dbcnt } })
  else
    let (left, inp) := toss s.inp.mem left inp
    (inp, { s with
      inp := { s.inp with dbcnt := left - 1 }
      out := { s.out with dbp := dbp, dbcnt := dbcnt }
      intrunc := if left = 0 then true else s.intrunc })

/-- `dd_out` where a block of the output is complete. -/
def outIfFull (c : Config) (s : Dd) : Except Stop Dd :=
  if c.obs ≤ s.out.dbcnt then ddOut c false s else .ok s

/-- The loop of `block` over the records, from `inp` on. -/
def blockLoop (c : Config) : Nat → Nat → Dd → Except Stop Dd
  | 0, _, _ => .error .fuel
  | fuel + 1, inp, s =>
    if s.inp.dbcnt = 0 then .ok { s with inp := { s.inp with dbp := 0 } }
    else
      let maxlen := min c.cbs s.inp.dbcnt
      let (cnt, ended, omem) := copyRecord c.table s.inp.mem maxlen inp s.out.dbp s.out.mem
      let s := { s with out := { s.out with mem := omem } }
      -- a short record without a newline
      if ended = false ∧ s.inp.dbcnt < c.cbs then
        let mem := store s.inp.mem 0 (slice s.inp.mem (s.inp.dbp - s.inp.dbcnt) s.inp.dbcnt)
        .ok { s with inp := { s.inp with mem := mem, dbp := s.inp.dbcnt } }
      else do
        let (inp, s) := finishRecord c inp cnt ended s
        let s ← outIfFull c s
        blockLoop c fuel inp s

def block (c : Config) (s : Dd) : Except Stop Dd :=
  if s.intrunc then
    let (cnt, inp) := toss s.inp.mem s.inp.dbrcnt 0
    if cnt = 0 then .ok { s with inp := { s.inp with dbcnt := 0, dbp := 0 } }
    else
      let dbp := inp + cnt - 1
      let s := { s with
        intrunc := false
        inp := { s.inp with dbcnt := cnt - 1, dbp := dbp } }
      blockLoop c cnt (dbp - (cnt - 1)) s
  else blockLoop c (s.inp.dbcnt + 1) (s.inp.dbp - s.inp.dbcnt) s

def blockClose (c : Config) (s : Dd) : Dd :=
  if s.inp.dbcnt = 0 then s
  else
    let record := slice s.inp.mem (s.inp.dbp - s.inp.dbcnt) s.inp.dbcnt
    let pad := List.replicate (c.cbs - s.inp.dbcnt) (c.table space)
    let mem := store s.out.mem s.out.dbp record
    { s with out := { s.out with
        mem := store mem (s.out.dbp + s.inp.dbcnt) pad
        dbcnt := s.out.dbcnt + c.cbs } }

/-- The length of a record of `n` bytes from `inp` on without the spaces at its end. -/
def trimmed (mem : Nat → Byte) (inp : Nat) : Nat → Nat
  | 0 => 0
  | n + 1 => if mem (inp + n) = space then trimmed mem inp n else n + 1

def putRecord (s : Dd) (inp n : Nat) : Dd :=
  let cnt := trimmed s.inp.mem inp n
  let mem := store s.out.mem s.out.dbp (slice s.inp.mem inp cnt)
  { s with out := { s.out with
      mem := store mem (s.out.dbp + cnt) [newline]
      dbp := s.out.dbp + cnt + 1
      dbcnt := s.out.dbcnt + cnt + 1 } }

/-- The loop of `unblock` over the records. -/
def unblockLoop (c : Config) : Nat → Nat → Dd → Except Stop Dd
  | 0, _, _ => .error .fuel
  | fuel + 1, inp, s =>
    if c.cbs ≤ s.inp.dbcnt then do
      let s := putRecord s inp c.cbs
      let s ← outIfFull c s
      unblockLoop c fuel (inp + c.cbs)
        { s with inp := { s.inp with dbcnt := s.inp.dbcnt - c.cbs } }
    else .ok s

/-- `*--inp = t[*inp]`, from the end of the block that was read. -/
def translateBack (c : Config) (t : Byte → Byte) (mem : Nat → Byte) : Nat → Nat → (Nat → Byte)
  | 0, _ => mem
  | cnt + 1, inp =>
    let ch := mem (if c.decrements then inp - 1 else inp)
    translateBack c t (store mem (inp - 1) [t ch]) cnt (inp - 1)

def translated (c : Config) (i : Io) : Nat → Byte :=
  match c.ctab with
  | none => i.mem
  | some t => translateBack c t i.mem i.dbrcnt i.dbp

def unblock (c : Config) (s : Dd) : Except Stop Dd := do
  let s := { s with inp := { s.inp with mem := translated c s.inp } }
  let s ← unblockLoop c (s.inp.dbcnt + 1) 0 s
  let i := s.inp
  let mem := if i.dbcnt = 0 then i.mem else store i.mem 0 (slice i.mem (i.dbp - i.dbcnt) i.dbcnt)
  .ok { s with inp := { i with mem := mem, dbp := i.dbcnt } }

def unblockClose (s : Dd) : Dd := if s.inp.dbcnt = 0 then s else putRecord s 0 s.inp.dbcnt

/-- One exchange in `swab`. -/
def swabStep : (Nat → Byte) × Nat → (Nat → Byte) × Nat
  | (mem, p) => (store mem p [mem (p + 1), mem p], p + 2)

/-- `swab(p, p, len)`: single steps, and then eight at a time. -/
def swab (mem : Nat → Byte) (p len : Nat) : Nat → Byte :=
  let n := len / 2
  ((swabStep^[8])^[n / 8] (swabStep^[n % 8] (mem, p))).1

/-- With `noerror` and `sync` the buffer is filled before each read. -/
def prefill (c : Config) (i : Io) : Io :=
  if c.noerror ∧ c.sync then { i with mem := store i.mem i.dbp (List.replicate c.ibs c.fill) }
  else i

/-- The block that was read, in the buffer; `none` for a read that failed. -/
def readBlock (c : Config) (read : Option (Chunk c.ibs)) (i : Io) : Io :=
  let i := prefill c i
  match read with
  | none => { i with dbrcnt := c.ibs, dbcnt := i.dbcnt + c.ibs }
  | some chunk =>
    let n := if c.sync then c.ibs else chunk.bytes.length
    { i with mem := store i.mem i.dbp chunk.bytes, dbrcnt := n, dbcnt := i.dbcnt + n }

/-- How many bytes `swab` is called for. -/
def swabCount (i : Io) : Nat := if i.dbcnt % 2 = 1 then i.dbcnt - 1 else i.dbcnt

def prepare (c : Config) (read : Option (Chunk c.ibs)) (i : Io) : Except Stop Io := do
  within (i.dbp + c.ibs) c.inSize
  let i := readBlock c read i
  if c.swab then do
    within (i.dbp + swabCount i) c.inSize
    .ok { i with mem := swab i.mem i.dbp (swabCount i) }
  else .ok i

def convert (c : Config) (s : Dd) : Except Stop Dd :=
  match c.cfunc with
  | .plain => plainConv c s
  | .block => block c s
  | .unblock => unblock c s

/-- One turn of `dd_in`. -/
def turn (c : Config) (read : Option (Chunk c.ibs)) (s : Dd) : Except Stop Dd :=
  if read.isNone ∧ ¬ c.noerror then .error .readError
  else if read.isNone ∧ ¬ c.sync then do
    within (s.inp.dbp + c.ibs) c.inSize
    .ok s
  else do
    let i ← prepare c read s.inp
    if c.bs then do
      let mem := if c.cfunc = .plain then i.mem else s.out.mem
      let s ← ddOut c true
        { s with
          inp := i
          out := { s.out with mem := mem, dbcnt := i.dbcnt }
          blocks := s.blocks + 1 }
      .ok { s with inp := { s.inp with dbcnt := 0 } }
    else convert c { s with inp := { i with dbp := i.dbp + i.dbrcnt }, blocks := s.blocks + 1 }

def atEnd (c : Config) (s : Dd) : Except Stop Dd := do
  within (s.inp.dbp + c.ibs) c.inSize
  .ok { s with inp := { prefill c s.inp with dbrcnt := 0 } }

/-- `count` blocks have been read. -/
def Config.Enough (c : Config) (blocks : Nat) : Prop := c.count ≠ 0 ∧ c.count ≤ blocks

instance (c : Config) (blocks : Nat) : Decidable (c.Enough blocks) := instDecidableAnd

def IsEnd {c : Config} (read : Option (Chunk c.ibs)) : Prop :=
  read.any (fun chunk => chunk.bytes.isEmpty) = true

instance {c : Config} (read : Option (Chunk c.ibs)) : Decidable (IsEnd read) :=
  instDecidableEqBool _ _

/-- `dd_in`, where `reads` is what the reads give; behind the last one the input ends. -/
def ddIn (c : Config) : List (Option (Chunk c.ibs)) → Dd → Except Stop Dd
  | [], s => if c.Enough s.blocks then .ok s else atEnd c s
  | read :: reads, s =>
    if c.Enough s.blocks then .ok s
    else if IsEnd read then atEnd c s
    else do
      let s ← turn c read s
      ddIn c reads s

def close (c : Config) (s : Dd) : Dd :=
  match c.cfunc with
  | .plain => plainClose s
  | .block => blockClose c s
  | .unblock => unblockClose s

/-- The last block is filled up for `osync`. -/
def osyncFill (c : Config) (s : Dd) : Dd :=
  if c.osync ∧ s.out.dbcnt < c.obs then
    { s with out := { s.out with
        mem := store s.out.mem s.out.dbp (List.replicate (c.obs - s.out.dbcnt) 0)
        dbcnt := c.obs } }
  else s

def flush (c : Config) (s : Dd) : Except Stop Dd :=
  if s.out.dbcnt = 0 then .ok s else ddOut c true s

def ddClose (c : Config) (s : Dd) : Except Stop Dd := flush c (osyncFill c (close c s))

/-- The state after `setup`, with buffers of any contents. -/
def start (imem omem : Nat → Byte) : Dd where
  inp := ⟨imem, 0, 0, 0⟩
  out := ⟨omem, 0, 0, 0⟩
  intrunc := false
  blocks := 0
  written := []
  calls := []
  writes := 0

/-- `dd` on one input. -/
def dd (c : Config) (reads : List (Option (Chunk c.ibs))) (imem omem : Nat → Byte) :
    Except Stop Dd := do
  let s ← ddIn c reads (start imem omem)
  ddClose c s

end Bsdi.Dd
