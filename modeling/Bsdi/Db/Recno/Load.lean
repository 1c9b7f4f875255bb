import Bsdi.Db.Btree.Page

/-!
# Loading records

`rec_get.c`: the four routines that read the records of the user's file into the tree, by `getc`
(`__rec_fpipe`, `__rec_vpipe`) or from memory (`__rec_fmap`, `__rec_vmap`). The tree is the list of
its records here.
-/

namespace Bsdi.Db

structure Loader where
  /-- What is left of the file: the characters `getc` returns, or those from `bt_cmap` on. -/
  input : List UInt8
  /-- The memory of `bt_rdata`; `bt_rdata.size` is its length. -/
  rdata : List UInt8
  /-- The records in the tree; `bt_nrecs` is their number. -/
  recs : List Dbt
  /-- `R_EOF`. -/
  eof : Bool

/-- `__rec_iput` without flags: replace the record or append one. -/
def recIput (recs : List Dbt) (nrec : ℕ) (data : Dbt) : List Dbt :=
  if nrec < recs.length then recs.set nrec data else recs ++ [data]

/-- `memset` of `len` bytes from `p` on. -/
def memset (buf : List UInt8) (p : ℕ) (b : UInt8) (len : ℕ) : List UInt8 :=
  buf.take p ++ List.replicate len b ++ buf.drop (p + len)

/-- `malloc` or `realloc` of `bt_rdata`: at least `reclen` bytes. -/
def growRdata (reclen : ℕ) (buf : List UInt8) : List UInt8 :=
  if buf.length < reclen then buf ++ List.replicate (reclen - buf.length) 0 else buf

/-- One record of `__rec_fpipe`: the buffer, the input behind it, and whether `getc` has returned
`EOF`. -/
def fpipeFill (bval : UInt8) :
    List UInt8 → List UInt8 → ℕ → ℕ → List UInt8 × List UInt8 × Bool
  | [], buf, p, len => (memset buf p bval len, [], true)
  | ch :: input, buf, p, len =>
    if len - 1 = 0 then (buf.set p ch, input, false)
    else fpipeFill bval input (buf.set p ch) (p + 1) (len - 1)

/-- The loop of `__rec_fpipe`, with `left` records to read; it returns how many are missing. -/
def fpipeLoop (reclen : ℕ) (bval : UInt8) : ℕ → Loader → ℕ × Loader
  | 0, t => (0, t)
  | left + 1, t =>
    let (buf, input, eof) := fpipeFill bval t.input t.rdata 0 reclen
    let t := { t with
      input := input
      rdata := buf
      recs := recIput t.recs t.recs.length (buf.take reclen) }
    if eof then (left, t) else fpipeLoop reclen bval left t

def pipeEnd (r : ℕ × Loader) : Ret × Loader :=
  if 0 < r.1 then (.special, { r.2 with eof := true }) else (.success, r.2)

def recFpipe (reclen : ℕ) (bval : UInt8) (top : ℕ) (t : Loader) : Ret × Loader :=
  pipeEnd (fpipeLoop reclen bval (top - t.recs.length)
    { t with rdata := growRdata reclen t.rdata })

/-- One record of `__rec_fmap`: the buffer and `sp`. -/
def fmapFill (bval : UInt8) : List UInt8 → List UInt8 → ℕ → ℕ → List UInt8 × List UInt8
  | c :: sp, buf, p, len + 1 => fmapFill bval sp (buf.set p c) (p + 1) len
  | sp, buf, p, len => (memset buf p bval len, sp)

/-- The loop of `__rec_fmap`. -/
def fmapLoop (reclen : ℕ) (bval : UInt8) : ℕ → List UInt8 → Loader → Ret × Loader
  | 0, sp, t => (.success, { t with input := sp })
  | left + 1, sp, t =>
    if sp = [] then (.special, { t with eof := true })
    else
      let (buf, sp) := fmapFill bval sp t.rdata 0 reclen
      fmapLoop reclen bval left sp { t with
        rdata := buf
        recs := recIput t.recs t.recs.length (buf.take reclen) }

def recFmap (reclen : ℕ) (bval : UInt8) (top : ℕ) (t : Loader) : Ret × Loader :=
  fmapLoop reclen bval (top - t.recs.length) t.input
    { t with rdata := growRdata reclen t.rdata }

/-- One record of `__rec_vpipe`: the buffer, the offset of `p`, the input behind the record, and
whether `getc` has returned `EOF`. A buffer that is full grows by 256 bytes, and `len`, an `indx_t`,
keeps the offset. -/
def vpipeRecord (bval : UInt8) :
    List UInt8 → List UInt8 → ℕ → ℕ → List UInt8 × ℕ × List UInt8 × Bool
  | [], buf, p, _ => (buf, p, [], true)
  | ch :: input, buf, p, sz =>
    if ch = bval then (buf, p, input, false)
    else if sz = 0 then
      let len := p % 65536
      vpipeRecord bval input ((buf ++ List.replicate 256 0).set len ch) (len + 1) 255
    else vpipeRecord bval input (buf.set p ch) (p + 1) (sz - 1)

/-- The loop of `__rec_vpipe`. At the end of the file `nrec` is not incremented. -/
def vpipeLoop (bval : UInt8) : ℕ → Loader → ℕ × Loader
  | 0, t => (0, t)
  | left + 1, t =>
    let (buf, p, input, eof) := vpipeRecord bval t.input t.rdata 0 t.rdata.length
    let t' := { t with
      input := input
      rdata := buf
      recs := recIput t.recs t.recs.length (buf.take p) }
    if eof then (left + 1, if p = 0 then { t' with recs := t.recs } else t')
    else vpipeLoop bval left t'

def recVpipe (bval : UInt8) (top : ℕ) (t : Loader) : Ret × Loader :=
  pipeEnd (vpipeLoop bval (top - t.recs.length) t)

/-- The loop of `__rec_vmap`. -/
def vmapLoop (bval : UInt8) : ℕ → List UInt8 → Loader → Ret × Loader
  | 0, sp, t => (.success, { t with input := sp })
  | left + 1, sp, t =>
    if sp = [] then (.special, { t with eof := true })
    else
      vmapLoop bval left (sp.dropWhile (· != bval)).tail { t with
        recs := recIput t.recs t.recs.length (sp.takeWhile (· != bval)) }

def recVmap (bval : UInt8) (top : ℕ) (t : Loader) : Ret × Loader :=
  vmapLoop bval (top - t.recs.length) t.input t

@[simp] theorem recIput_length (recs : List Dbt) (data : Dbt) :
    recIput recs recs.length data = recs ++ [data] := if_neg (Nat.lt_irrefl _)

theorem take_set {buf : List UInt8} {p : ℕ} {c : UInt8} (h : p < buf.length) :
    (buf.set p c).take (p + 1) = buf.take p ++ [c] := by
  have hlength : (buf.take p).length = p := by
    rw [List.length_take]
    exact Nat.min_eq_left (Nat.le_of_lt h)
  rw [List.take_set, List.take_succ_eq_append_getElem h,
    List.set_append_right _ _ (Nat.le_of_eq hlength), hlength, Nat.sub_self, List.set_cons_zero]

end Bsdi.Db
