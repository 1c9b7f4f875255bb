import Mathlib.Tactic.Ring

/-!
# The hash table

`hash.c`: the header fields that locate buckets, and the segment directory. The masks and
`MAX_BUCKET` are words of 32 bits. Pages are left out here.
-/

namespace Bsdi.Db.Hash

/-- A C `int` with the bits of a number. -/
def toInt (x : ℤ) : ℤ := x.bmod (2 ^ 32)

/-- The part of `HTAB` that locates buckets. -/
structure Htab where
  /-- `DSIZE`: directory size. -/
  dsize : ℤ
  /-- `SGSIZE`: segment size. -/
  ssize : ℕ
  /-- `SSHIFT`: segment shift. -/
  sshift : ℕ
  ovflPoint : ℕ
  /-- `MAX_BUCKET`: ID of the maximum bucket in use. -/
  maxBucket : BitVec 32
  highMask : BitVec 32
  lowMask : BitVec 32
  spares : ℕ → ℕ
  /-- Number of allocated segments. -/
  nsegs : ℤ
  /-- Number of extra allocated segments. -/
  exsegs : ℤ
  /-- How many entries the memory behind `dir` has. -/
  dir : ℤ

def defSegsize : ℕ := 256

def defSegsizeShift : ℕ := 8

def defDirsize : ℤ := 256

/-- `sizeof(SEGMENT *)`. -/
def sizeofSegmentPtr : ℤ := 4

def log2Loop (num : ℕ) : ℕ → ℕ → ℕ → ℕ
  | 0, _, i => i
  | fuel + 1, limit, i =>
    if limit < num then log2Loop num fuel (limit * 2 % 2 ^ 32) (i + 1) else i

/-- `__log2`: of a number of at most `2 ^ 31`. -/
def log2 (num : ℕ) : ℕ := log2Loop num 32 1 0

/-- The number of buckets wanted for `nelem` elements. -/
def elements (nelem ffactor : ℤ) : ℤ := toInt ((nelem - 1).tdiv ffactor + 1)

/-- `alloc_segs`, when there is memory. -/
def allocSegs (t : Htab) (nsegs : ℤ) : Htab := { t with dir := t.dsize, nsegs := t.nsegs + nsegs }

/-- `init_htab`, on the header that `init_hash` has filled with the defaults. -/
def initHtab (nelem ffactor : ℤ) : Htab :=
  let l2 := log2 (max (elements nelem ffactor) 2).toNat
  let nbuckets := BitVec.ofNat 32 (2 ^ l2)
  let nsegs := (nbuckets - 1).toNat / defSegsize + 1
  let nsegs : ℤ := 2 ^ log2 nsegs
  allocSegs
    { dsize := if defDirsize < nsegs then nsegs else defDirsize
      ssize := defSegsize
      sshift := defSegsizeShift
      ovflPoint := l2
      maxBucket := nbuckets - 1
      highMask := (nbuckets <<< 1) - 1
      lowMask := nbuckets - 1
      spares := Function.update (Function.update (fun _ => 0) l2 (l2 + 1)) (l2 + 1) (l2 + 1)
      nsegs := 0
      exsegs := 0
      dir := 0 }
    nsegs

/-- What `malloc` of a directory and `calloc` of a segment have to give. -/
structure Memory where
  dir : Bool
  seg : Bool

def newSegnum (t : Htab) (newBucket : BitVec 32) : ℤ := ((newBucket >>> t.sshift).toNat : ℤ)

/-- `hash_realloc` of the directory: memory of `dirsize << 1` bytes. -/
def reallocDir (t : Htab) : Htab :=
  let dirsize := toInt (t.dsize * sizeofSegmentPtr)
  { t with
    dir := toInt (dirsize * 2) / sizeofSegmentPtr
    dsize := toInt (dirsize * 2) }

/-- A new segment, if the bucket needs one. It returns whether there was memory, and the entry of
the directory that has been stored. -/
def newSegment (mem : Memory) (t : Htab) (segnum : ℤ) : Bool × Option ℤ × Htab :=
  if t.nsegs ≤ segnum then
    if t.dsize ≤ segnum ∧ mem.dir = false then (false, none, t)
    else
      let t := if t.dsize ≤ segnum then reallocDir t else t
      if mem.seg then (true, some segnum, { t with exsegs := t.exsegs + 1, nsegs := t.nsegs + 1 })
      else (false, some segnum, t)
  else (true, none, t)

def splitPoint (t : Htab) : Htab :=
  let spareNdx := log2 (t.maxBucket + 1).toNat
  if t.ovflPoint < spareNdx then
    { t with
      spares := Function.update t.spares spareNdx (t.spares t.ovflPoint)
      ovflPoint := spareNdx }
  else t

def doubling (t : Htab) (newBucket : BitVec 32) : Htab :=
  if t.highMask < newBucket then
    { t with lowMask := t.highMask, highMask := newBucket ||| t.highMask }
  else t

/-- `__expand_table`, up to the call of `__split_page`. -/
def expandTable (mem : Memory) (t : Htab) : Bool × Option ℤ × Htab :=
  let newBucket := t.maxBucket + 1
  let t := { t with maxBucket := newBucket }
  let (ok, stored, t) := newSegment mem t (newSegnum t newBucket)
  if ok then (true, stored, doubling (splitPoint t) newBucket) else (false, stored, t)

/-- `__call_hash`, for a key with hash value `n`. The buckets are compared as `int`s. -/
def callHash (t : Htab) (n : BitVec 32) : BitVec 32 :=
  let bucket := n &&& t.highMask
  if t.maxBucket.slt bucket then bucket &&& t.lowMask else bucket

end Bsdi.Db.Hash
