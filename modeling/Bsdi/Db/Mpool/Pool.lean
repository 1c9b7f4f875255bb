import Bsdi.Lib.Memory
import Mathlib.Data.List.Nodup
import Mathlib.Tactic.Ring

/-!
# The memory pool

The page cache of `mpool.c`, for a pool without filters. A buffer is known by its address, a
queue is the list of the buffers on it. Reads and writes of the file succeed; the file grows
where it is written. Where the code allocates memory, the answer of `malloc` is given: the
contents of the new memory, or that there is none.
-/

namespace Bsdi.Db.Pool

abbrev Byte := UInt8

/-- The contents of a page of `n` bytes. -/
abbrev Page (n : Nat) := Fin n → Byte

def hashsize : Nat := 128

/-- `HASHKEY(pgno)`, in 32-bit arithmetic. -/
@[irreducible] def hashkey (pgno : Nat) : Nat := (pgno + (2 ^ 32 - 1)) % 2 ^ 32 % hashsize

/-- `BKT`, without its links. -/
structure Bkt (n : Nat) where
  page : Page n
  pgno : Nat
  dirty : Bool
  pinned : Bool

structure File where
  bytes : Nat → Byte
  size : Nat

/-- `MPOOL` for pages of `n` bytes, with the buffers and the file behind it. -/
structure Mpool (n : Nat) where
  /-- The memory of the buffers. -/
  bkt : Nat → Bkt n
  /-- Where the next allocation will be. -/
  brk : Nat
  lqh : List Nat
  hqh : Nat → List Nat
  curcache : Nat
  maxcache : Nat
  npages : Nat
  file : File

variable {n : Nat}

def offset (n pgno : Nat) : Nat := n * pgno % 2 ^ 32

def File.read (f : File) (n off : Nat) : Page n := fun i => f.bytes (off + i)

def File.write (f : File) (off : Nat) (page : Page n) : File where
  bytes j := if h : off ≤ j ∧ j - off < n then page ⟨j - off, h.2⟩ else f.bytes j
  size := max f.size (off + n)

/-- The pool after the buffer `bp` is changed. -/
def Mpool.set (mp : Mpool n) (bp : Nat) (b : Bkt n) : Mpool n :=
  { mp with bkt := Function.update mp.bkt bp b }

/-- `mpool_open` of a file. -/
def mpoolOpen (n : Nat) (file : File) (maxcache : Nat) (bkt : Nat → Bkt n) (brk : Nat) :
    Mpool n where
  bkt := bkt
  brk := brk
  lqh := []
  hqh _ := []
  curcache := 0
  maxcache := maxcache
  npages := file.size / n
  file := file

def mpoolWrite (mp : Mpool n) (bp : Nat) : Mpool n :=
  { mp.set bp { mp.bkt bp with dirty := false } with
    file := mp.file.write (offset n (mp.bkt bp).pgno) (mp.bkt bp).page }

def flushBkt (mp : Mpool n) (bp : Nat) : Mpool n :=
  if (mp.bkt bp).dirty then mpoolWrite mp bp else mp

/-- The loop of `mpool_look`. -/
def mpoolLook (mp : Mpool n) (pgno : Nat) : Option Nat :=
  (mp.hqh (hashkey pgno)).find? fun bp => (mp.bkt bp).pgno = pgno

/-- `CIRCLEQ_REMOVE` from the hash chain and the lru chain. -/
def Mpool.unlink (mp : Mpool n) (bp : Nat) : Mpool n :=
  let key := hashkey (mp.bkt bp).pgno
  { mp with
    hqh := Function.update mp.hqh key ((mp.hqh key).erase bp)
    lqh := mp.lqh.erase bp }

/-- `CIRCLEQ_INSERT_HEAD` on the hash chain and `CIRCLEQ_INSERT_TAIL` on the lru chain. -/
def Mpool.link (mp : Mpool n) (bp : Nat) : Mpool n :=
  let key := hashkey (mp.bkt bp).pgno
  { mp with
    hqh := Function.update mp.hqh key (bp :: mp.hqh key)
    lqh := mp.lqh ++ [bp] }

/-- The part of `mpool_bkt` behind the label `new`. -/
def mpoolBktNew (mp : Mpool n) : Option (Page n) → Mpool n × Option Nat
  | none => (mp, none)
  | some page =>
    ({ mp.set mp.brk { mp.bkt mp.brk with page := page } with
        brk := mp.brk + 1
        curcache := mp.curcache + 1 }, some mp.brk)

def mpoolBkt (mp : Mpool n) (malloc : Option (Page n)) : Mpool n × Option Nat :=
  if mp.curcache < mp.maxcache then mpoolBktNew mp malloc
  else
    -- the first buffer of the lru chain that is not pinned
    match mp.lqh.find? fun bp => !(mp.bkt bp).pinned with
    | none => mpoolBktNew mp malloc
    | some bp => ((flushBkt mp bp).unlink bp, some bp)

/-- `mpool_new`: the buffer; its page number is in it. -/
def mpoolNew (mp : Mpool n) (malloc : Option (Page n)) : Mpool n × Option Nat :=
  match mpoolBkt mp malloc with
  | (mp, none) => (mp, none)
  | (mp, some bp) =>
    let b : Bkt n := ⟨(mp.bkt bp).page, mp.npages, false, true⟩
    (({ mp with npages := mp.npages + 1 }.set bp b).link bp, some bp)

def mpoolGet (mp : Mpool n) (pgno : Nat) (malloc : Option (Page n)) : Mpool n × Option Nat :=
  if mp.npages ≤ pgno then (mp, none)
  else
    match mpoolLook mp pgno with
    | some bp =>
      let mp := (mp.unlink bp).link bp
      (mp.set bp { mp.bkt bp with pinned := true }, some bp)
    | none =>
      match mpoolBkt mp malloc with
      | (mp, none) => (mp, none)
      | (mp, some bp) =>
        let off := offset n pgno
        -- `read` returns less than a page at the end of the file
        if mp.file.size < off + n then (mp, none)
        else ((mp.set bp ⟨mp.file.read n off, pgno, false, true⟩).link bp, some bp)

def mpoolPut (mp : Mpool n) (bp : Nat) (dirty : Bool) : Mpool n :=
  mp.set bp { mp.bkt bp with pinned := false, dirty := (mp.bkt bp).dirty || dirty }

/-- `mpool_sync`, over the lru chain from its head. -/
def mpoolSync (mp : Mpool n) : Mpool n := mp.lqh.foldl flushBkt mp

end Bsdi.Db.Pool
