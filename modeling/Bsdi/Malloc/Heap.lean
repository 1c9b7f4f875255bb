import Mathlib.Data.List.Basic
import Mathlib.Tactic.Ring

/-!
# The storage allocator

`malloc.c`. Memory is a function from addresses to bytes, zero where `sbrk` has handed out nothing.
The header of a block is its first four bytes: the address of the next free block, or the magic
number and the index of the list in its first two bytes.

A call gets the answers of `sbrk` with its arguments. The code does not look at the regions and
blocks kept beside the heap.
-/

namespace Bsdi.Malloc

abbrev Byte := UInt8

def getWord (mem : Nat → Byte) (a : Nat) : Nat :=
  (mem a).toNat + 2 ^ 8 * (mem (a + 1)).toNat + 2 ^ 16 * (mem (a + 2)).toNat +
    2 ^ 24 * (mem (a + 3)).toNat

def setByte (mem : Nat → Byte) (a : Nat) (v : Nat) : Nat → Byte :=
  fun b => if b = a then UInt8.ofNat v else mem b

def setWord (mem : Nat → Byte) (a v : Nat) : Nat → Byte :=
  setByte (setByte (setByte (setByte mem a v) (a + 1) (v / 2 ^ 8)) (a + 2) (v / 2 ^ 16)) (a + 3)
    (v / 2 ^ 24)

def bcopy (mem : Nat → Byte) (src dst n : Nat) : Nat → Byte :=
  fun b => if dst ≤ b ∧ b < dst + n then mem (src + (b - dst)) else mem b

def magic : Nat := 0xef

def nbuckets : Nat := 30

/-- The size of `union overhead`. -/
def overhead : Nat := 4

/-- The static variables, and with them the regions that `sbrk` handed out and the blocks that were
cut out of them, each with the number of its list. -/
structure Heap where
  mem : Nat → Byte
  nextf : Nat → Nat
  pagesz : Nat
  pagebucket : Nat
  regions : List (Nat × Nat)
  carved : List (Nat × Nat)

/-- What `sbrk` answers in a call: to `sbrk(0)`, to the request that aligns the break, and to that of
`morecore`; `none` is a failure. -/
structure Answers where
  brk : Nat
  align : Option Nat
  core : Option Nat

/-- The loop that finds `pagebucket`. -/
def findPagebucket (pagesz : Nat) : Nat → (amt bucket : Nat) → Nat
  | 0, _, bucket => bucket
  | n + 1, amt, bucket =>
    if amt < pagesz then findPagebucket pagesz n (amt * 2) (bucket + 1) else bucket

/-- The `while` loop of `malloc`; `amt` has 32 bits. -/
def findBucket (nbytes : Nat) (n : Int) : Nat → (amt bucket : Nat) → Option Nat
  | 0, _, _ => none
  | k + 1, amt, bucket =>
    if (nbytes : Int) ≤ amt + n then some bucket
    else if amt * 2 % 2 ^ 32 = 0 then none
    else findBucket nbytes n k (amt * 2 % 2 ^ 32) (bucket + 1)

def bucketOf (pagesz pagebucket nbytes : Nat) : Option Nat :=
  if (nbytes : Int) ≤ pagesz - overhead then findBucket nbytes (-overhead) 33 8 0
  else findBucket nbytes (pagesz - overhead) 33 pagesz pagebucket

/-- What `morecore` asks `sbrk` for. -/
def coreSize (pagesz bucket : Nat) : Nat :=
  if 2 ^ (bucket + 3) < pagesz then pagesz else 2 ^ (bucket + 3) + pagesz

def nblks (pagesz bucket : Nat) : Nat :=
  if 2 ^ (bucket + 3) < pagesz then pagesz / 2 ^ (bucket + 3) else 1

/-- The loop of `morecore`, with so many links to set. -/
def link (sz : Nat) : Nat → (op : Nat) → (Nat → Byte) → Nat → Byte
  | 0, _, mem => mem
  | n + 1, op, mem => link sz n (op + sz) (setWord mem op (op + sz))

namespace Heap

def alignSize (page : Nat) (ans : Answers) : Nat :=
  let n : Int := page - overhead - (ans.brk % page : Nat)
  (if n < 0 then n + page else n).toNat

/-- The first part of `malloc`, which does something in the first call only: whether it gave up. -/
def setup (page : Nat) (ans : Answers) (h : Heap) : Bool × Heap :=
  if h.pagesz ≠ 0 then (false, h)
  else
    let n := alignSize page ans
    let h := { h with pagesz := page }
    if n ≠ 0 then
      match ans.align with
      | none => (true, h)
      | some a => (false, { h with
          regions := (a, n) :: h.regions
          pagebucket := findPagebucket page 32 8 0 })
    else (false, { h with pagebucket := findPagebucket page 32 8 0 })

def morecore (bucket : Nat) (core : Option Nat) (h : Heap) : Heap :=
  if 31 ≤ bucket + 3 then h
  else
    match core with
    | none => h
    | some op =>
      let sz := 2 ^ (bucket + 3)
      let n := nblks h.pagesz bucket
      { h with
        mem := link sz (n - 1) op h.mem
        nextf := Function.update h.nextf bucket op
        regions := (op, coreSize h.pagesz bucket) :: h.regions
        carved := (List.range n).map (fun i => (op + i * sz, bucket)) ++ h.carved }

/-- The end of `malloc`: the first block of a list is taken off. -/
def pop (bucket : Nat) (h : Heap) : Nat × Heap :=
  let op := h.nextf bucket
  (op + overhead, { h with
    nextf := Function.update h.nextf bucket (getWord h.mem op)
    mem := setByte (setByte h.mem op magic) (op + 1) bucket })

/-- `malloc`: a null pointer is `none`. -/
def malloc (page nbytes : Nat) (ans : Answers) (h : Heap) : Option Nat × Heap :=
  match h.setup page ans with
  | (true, h) => (none, h)
  | (false, h) =>
    match bucketOf h.pagesz h.pagebucket nbytes with
    | none => (none, h)
    | some bucket =>
      let h := if h.nextf bucket = 0 then h.morecore bucket ans.core else h
      if h.nextf bucket = 0 then (none, h)
      else ((h.pop bucket).1, (h.pop bucket).2)

/-- `free` of a pointer that is not null. -/
def free (cp : Nat) (h : Heap) : Heap :=
  let op := cp - overhead
  if (h.mem op).toNat ≠ magic then h
  else
    let size := (h.mem (op + 1)).toNat
    { h with mem := setWord h.mem op (h.nextf size), nextf := Function.update h.nextf size op }

/-- Whether one of the first `n` blocks of a free list is `freep`. -/
def onList (mem : Nat → Byte) (freep : Nat) : Nat → (p : Nat) → Bool
  | 0, _ => false
  | n + 1, p => p ≠ 0 && (p = freep || onList mem freep n (getWord mem p))

def findbucket (freep srchlen : Nat) (h : Heap) : Option Nat :=
  (List.range nbuckets).find? fun i => onList h.mem freep srchlen (h.nextf i)

/-- What fits in a block of a list, as `realloc` computes it. -/
def capacity (pagesz i : Nat) : Nat :=
  let onb := 2 ^ ((i + 3) % 32)
  if onb < pagesz then onb - overhead else onb + pagesz - overhead

def below (pagesz i : Nat) : Nat :=
  if i = 0 then 0
  else if 2 ^ (i + 2) < pagesz then 2 ^ (i + 2) - overhead else 2 ^ (i + 2) + pagesz - overhead

/-- The list of the block that `realloc` is given, and whether the block is in use; `srchlen` is
`__realloc_srchlen`. -/
def locate (srchlen cp : Nat) (h : Heap) : Bool × Nat :=
  let op := cp - overhead
  if (h.mem op).toNat = magic then (true, (h.mem (op + 1)).toNat)
  else (false, ((h.findbucket op 1).orElse fun _ => h.findbucket op srchlen).getD nbuckets)

/-- Whether `realloc` leaves the block where it is. -/
def stays (srchlen cp nbytes : Nat) (h : Heap) : Bool :=
  let (alloced, i) := h.locate srchlen cp
  alloced && nbytes ≤ capacity h.pagesz i && below h.pagesz i < nbytes

/-- `realloc` of a pointer that is not null. -/
def realloc (page srchlen cp nbytes : Nat) (ans : Answers) (h : Heap) : Option Nat × Heap :=
  let (alloced, i) := h.locate srchlen cp
  let onb := capacity h.pagesz i
  if h.stays srchlen cp nbytes then (some cp, h)
  else
    let h := if alloced then h.free cp else h
    match h.malloc page nbytes ans with
    | (none, h) => (none, h)
    | (some res, h) =>
      if cp ≠ res then (some res, { h with mem := bcopy h.mem cp res (min nbytes onb) })
      else (some res, h)

def start : Heap := ⟨fun _ => 0, fun _ => 0, 0, 0, [], []⟩

end Heap

end Bsdi.Malloc
