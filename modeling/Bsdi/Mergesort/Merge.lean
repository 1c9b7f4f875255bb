import Bsdi.Lib.Memory
import Mathlib.Data.Int.Order.Basic

/-!
# Merge sort

`merge.c`. The memory is a function from addresses to bytes, and a pointer is an address of 32 bits;
arithmetic on pointers does not wrap. The array and the scratch array hold elements of `size`
bytes each, and pointers: the links of the runs.
-/

namespace Bsdi.Mergesort

open Bsdi.Lib

structure Mem where
  byte : ℕ → UInt8

def Mem.put (mem : Mem) (a : ℕ) (bytes : List UInt8) : Mem := ⟨store mem.byte a bytes⟩

abbrev Elem := List UInt8

/-- `ISIZE`: `sizeof(int)`. -/
def isize : ℕ := 4

/-- `PSIZE`: `sizeof(u_char *)`. -/
def psize : ℕ := 4

/-- `THRESHOLD`: the natural merge cut-off. -/
def threshold : ℕ := 16

/-- `EVAL`: the next possible pointer head. -/
def eval (p : ℕ) : ℕ := (p + psize - 1) / psize * psize

def ptrBytes (p : ℕ) : List UInt8 :=
  [UInt8.ofNat p, UInt8.ofNat (p / 256), UInt8.ofNat (p / 65536), UInt8.ofNat (p / 16777216)]

/-- `*EVAL(a) = p`. -/
def setLink (mem : Mem) (a p : ℕ) : Mem := mem.put (eval a) (ptrBytes p)

/-- `*EVAL(a)`. -/
def link (mem : Mem) (a : ℕ) : ℕ :=
  (mem.byte (eval a)).toNat + 256 * (mem.byte (eval a + 1)).toNat +
    65536 * (mem.byte (eval a + 2)).toNat + 16777216 * (mem.byte (eval a + 3)).toNat

section

variable (cmp : Elem → Elem → ℤ) (size : ℕ)

def elt (mem : Mem) (a : ℕ) : Elem := slice mem.byte a size

/-- The inner loop of `swap` and `reverse`: exchange `i` bytes. -/
def swapBytes : ℕ → ℕ → ℕ → Mem → Mem
  | 0, _, _, mem => mem
  | i + 1, a, s, mem =>
    swapBytes i (a + 1) (s + 1) ((mem.put a [mem.byte s]).put s [mem.byte a])

def swap (a b : ℕ) (mem : Mem) : Mem := swapBytes size a b mem

/-- The loop of `reverse`. -/
def reverse : ℕ → ℕ → ℕ → Mem → Mem
  | 0, _, _, mem => mem
  | fuel + 1, bot, s, mem =>
    let mem := swapBytes size bot s mem
    let bot := bot + size
    let s := s + size - 2 * size
    if bot < s then reverse fuel bot s mem else mem

/-- The inner loop of `insertionsort`, with `k` elements before `t`. -/
def insertBack (a : ℕ) : ℕ → Mem → Mem
  | 0, mem => mem
  | k + 1, mem =>
    let t := a + (k + 1) * size
    let u := t - size
    if cmp (elt size mem u) (elt size mem t) ≤ 0 then mem else insertBack a k (swap size u t mem)

/-- The outer loop of `insertionsort`: `ai` is the element with `k` before it. -/
def insertionLoop (a : ℕ) : ℕ → ℕ → Mem → Mem
  | 0, _, mem => mem
  | n + 1, k, mem => insertionLoop a n (k + 1) (insertBack cmp size a k mem)

/-- `insertionsort`, of one element or more. -/
def insertionsort (a n : ℕ) (mem : Mem) : Mem := insertionLoop cmp size a (n - 1) 1 mem

/-- Does the pair at `f2` compare with the given sense? -/
def hasSense (mem : Mem) (f1 f2 : ℕ) : Bool := decide (0 < cmp (elt size mem f1) (elt size mem f2))

/-- Find pairs with same sense. It returns `f2` and `length`. -/
def findPairs (last : ℕ) (sense : Bool) (mem : Mem) : ℕ → ℕ → ℕ → ℕ × ℕ
  | 0, f2, length => (f2, length)
  | fuel + 1, f2, length =>
    if f2 < last then
      if hasSense cmp size mem f2 (f2 + size) ≠ sense then (f2, length)
      else findPairs last sense mem fuel (f2 + 2 * size) (length + 2)
    else (f2, length)

/-- Pairwise merge: every pair up to `f2` becomes a run. It returns `f1` and `p2`. -/
def pairwise (list1 list2 f2 : ℕ) (sense : Bool) : ℕ → ℕ → ℕ → Mem → ℕ × ℕ × Mem
  | 0, f1, p2, mem => (f1, p2, mem)
  | fuel + 1, f1, p2, mem =>
    let next := f1 + 2 * size - list1 + list2
    let mem := setLink mem p2 next
    let mem := if sense then swap size f1 (f1 + size) mem else mem
    if f1 + 2 * size < f2 then pairwise list1 list2 f2 sense fuel (f1 + 2 * size) next mem
    else (f1 + 2 * size, next, mem)

/-- Natural merge: find the runs up to `l2`. It returns `f1`, `f2` and `p2`. -/
def natural (list1 list2 l2 : ℕ) (sense : Bool) : ℕ → ℕ → ℕ → ℕ → Mem → ℕ × ℕ × ℕ × Mem
  | 0, f1, f2, p2, mem => (f1, f2, p2, mem)
  | fuel + 1, f1, f2, p2, mem =>
    if f2 < l2 then
      if hasSense cmp size mem (f2 - size) f2 ≠ sense then
        let next := f2 - list1 + list2
        let mem := setLink mem p2 next
        let mem := if sense then reverse size f2 f1 (f2 - size) mem else mem
        natural list1 list2 l2 sense fuel f2 (f2 + 2 * size) next mem
      else natural list1 list2 l2 sense fuel f1 (f2 + 2 * size) p2 mem
    else (f1, f2, p2, mem)

/-- The loop of `setup` over groups of pairs with the same sense. -/
def setupLoop (list1 list2 n last : ℕ) : ℕ → ℕ → ℕ → Bool → Mem → Mem
  | 0, _, _, _, mem => mem
  | fuel + 1, f1, p2, sense, mem =>
    if f1 < last then
      let (f2, length) := findPairs cmp size last sense mem n (f1 + 2 * size) 2
      if length < threshold then
        let (f1, p2, mem) := pairwise size list1 list2 f2 sense n f1 p2 mem
        setupLoop list1 list2 n last fuel f1 p2 (!sense) mem
      else
        let (f1, f2, p2, mem) :=
          natural cmp size list1 list2 f2 sense n f1 (f1 + 2 * size) p2 mem
        let mem := if sense then reverse size f2 f1 (f2 - size) mem else mem
        let next :=
          if f2 < last ∨ 0 < cmp (elt size mem (f2 - size)) (elt size mem f2) then
            f2 - list1 + list2
          else list2 + n * size
        setupLoop list1 list2 n last fuel f2 next (!sense) (setLink mem p2 next)
    else mem

def setup (list1 list2 n : ℕ) (mem : Mem) : Mem :=
  if n ≤ 5 then setLink (insertionsort cmp size list1 n mem) list2 (list2 + n * size)
  else
    -- avoid running pointers out of bounds; limit n to evens
    let i := 4 + n % 2
    let mem := insertionsort cmp size (list1 + (n - i) * size) i mem
    let last := list1 + size * (n - i)
    let mem := setLink mem (list2 + (last - list1)) (list2 + n * size)
    setupLoop cmp size list1 list2 n last n list1 list2
      (hasSense cmp size mem list1 (list1 + size)) mem

section Search

variable (mem : Mem) (q : ℕ) (sense : ℤ)

/-- `cmp(q, p) > sense`: the element at `p` goes before `q`. -/
def Before (p : ℕ) : Prop := sense < cmp (elt size mem q) (elt size mem p)

instance (p : ℕ) : Decidable (Before cmp size mem q sense p) := inferInstanceAs (Decidable (_ < _))

/-- `LINEAR`, with `left` comparisons until it gives up. It returns whether it has, and `b`. -/
def linear (t : ℕ) : ℕ → ℕ → Bool × ℕ
  | 0, b => (true, b)
  | left + 1, b =>
    if b + size < t ∧ Before cmp size mem q sense (b + size) then
      if left = 0 then (true, b + size) else linear t left (b + size)
    else (false, b + size)

/-- Where `EXPONENTIAL` goes to, with `b`, `t` and `i`. -/
inductive Label
  | slow (b t : ℕ)
  | fast (b t i : ℕ)

def exponential (t : ℕ) : ℕ → ℕ → ℕ → Label
  | 0, b, _ => .slow b t
  | fuel + 1, b, i =>
    let p := b + i
    if t ≤ p then
      let p := t - size
      if b < p ∧ ¬Before cmp size mem q sense p then .slow b p else .slow p t
    else if ¬Before cmp size mem q sense p then .fast b p i
    else exponential t fuel p (2 * i)

/-- `SLOWCASE`: binary search. It returns `t`. -/
def slowcase : ℕ → ℕ → ℕ → ℕ
  | 0, _, t => t
  | fuel + 1, b, t =>
    if b + size < t then
      let p := b + (t - b) / size / 2 * size
      if ¬Before cmp size mem q sense p then slowcase fuel b p else slowcase fuel p t
    else t

/-- `FASTCASE`: binary search in a power of two elements. It returns `t`. -/
def fastcase : ℕ → ℕ → ℕ → ℕ → ℕ
  | 0, _, t, _ => t
  | fuel + 1, b, t, i =>
    if size < i then
      let i := i / 2
      let p := b + i
      if ¬Before cmp size mem q sense p then fastcase fuel b p i else fastcase fuel p t i
    else t

/-- From `EXPONENTIAL` to `COPY`: `b`, and whether `big` stays set. -/
def bigSearch (b t : ℕ) : ℕ × Bool :=
  match exponential cmp size mem q sense t t b size with
  | .slow b t => (slowcase cmp size mem q sense t b t, true)
  | .fast b t i => (fastcase cmp size mem q sense t b t i, decide (i ≠ size))

/-- The end of the elements from `b` on that go before `q`, and `big`. -/
def search (big : Bool) (b t : ℕ) : ℕ × Bool :=
  if big then bigSearch cmp size mem q sense b t
  else
    match linear cmp size mem q sense t 6 b with
    | (true, b) => bigSearch cmp size mem q sense b t
    | (false, b) => (b, false)

end Search

/-- `cnt` steps of a copy loop. -/
def copyLoop (step : ℕ) : ℕ → ℕ → ℕ → Mem → Mem
  | 0, _, _, mem => mem
  | cnt + 1, src, dst, mem =>
    copyLoop step cnt (src + step) (dst + step) (mem.put dst (slice mem.byte src step))

/-- `ICOPY_LIST` and `CCOPY_LIST`: at least one step, until `src` reaches `last`. -/
def copyList (step src dst last : ℕ) (mem : Mem) : Mem :=
  copyLoop step (max 1 ((last - src + step - 1) / step)) src dst mem

/-- `ICOPY_ELT` and `CCOPY_ELT`. -/
def copyElt (step src dst : ℕ) (mem : Mem) : Mem := copyLoop step (size / step) src dst mem

structure Merging where
  mem : Mem
  f1 : ℕ
  f2 : ℕ
  tp2 : ℕ
  big : Bool

/-- One round: copy the elements before `q`, and `q`. -/
def mergeStep (step l1 l2 : ℕ) (s : Merging) : Merging :=
  if cmp (elt size s.mem s.f1) (elt size s.mem s.f2) ≤ 0 then
    let (b, big) := search cmp size s.mem s.f2 (-1) s.big s.f1 l1
    let mem := copyList step s.f1 s.tp2 b s.mem
    let tp2 := s.tp2 + (b - s.f1)
    { mem := copyElt size step s.f2 tp2 mem, f1 := b, f2 := s.f2 + size, tp2 := tp2 + size, big }
  else
    let (b, big) := search cmp size s.mem s.f1 0 s.big s.f2 l2
    let mem := copyList step s.f2 s.tp2 b s.mem
    let tp2 := s.tp2 + (b - s.f2)
    { mem := copyElt size step s.f1 tp2 mem, f1 := s.f1 + size, f2 := b, tp2 := tp2 + size, big }

def mergeLoop (step l1 l2 : ℕ) : ℕ → Merging → Merging
  | 0, s => s
  | fuel + 1, s =>
    if s.f1 < l1 ∧ s.f2 < l2 then mergeLoop step l1 l2 fuel (mergeStep cmp size step l1 l2 s)
    else if s.f2 < l2 then
      { s with mem := copyList step s.f2 s.tp2 l2 s.mem, tp2 := s.tp2 + (l2 - s.f2) }
    else if s.f1 < l1 then
      { s with mem := copyList step s.f1 s.tp2 l1 s.mem, tp2 := s.tp2 + (l1 - s.f1) }
    else s

/-- One pass over the runs. The state is `p2`, `l2`, `tp2`, `big` and the memory. -/
def mergePass (step list1 list2 last : ℕ) : ℕ → ℕ → ℕ → ℕ → Bool → Mem → Bool × Mem
  | 0, _, _, _, big, mem => (big, mem)
  | fuel + 1, p2, l2, tp2, big, mem =>
    if p2 = last then (big, mem)
    else
      let p1 := l2
      let f1 := l2
      let p2 := link mem p2
      let l1 := list1 + (p2 - list2)
      let p2 := if p2 ≠ last then link mem p2 else p2
      let l2 := list1 + (p2 - list2)
      let s := mergeLoop cmp size step l1 l2 (l2 - f1 + 1) ⟨mem, f1, l1, tp2, big⟩
      mergePass step list1 list2 last fuel p2 l2 s.tp2 s.big (setLink s.mem p1 l2)

/-- What the passes change: the two arrays trade places. -/
structure Sorting where
  mem : Mem
  list1 : ℕ
  list2 : ℕ
  big : Bool

def pass (step n : ℕ) (s : Sorting) : Sorting :=
  let (big, mem) := mergePass cmp size step s.list1 s.list2 (s.list2 + n * size) n s.list2 s.list1
    s.list2 s.big s.mem
  { mem, list1 := s.list2, list2 := s.list1, big }

def Sorting.Done (n : ℕ) (s : Sorting) : Prop := link s.mem s.list2 = s.list2 + n * size

instance (n : ℕ) (s : Sorting) : Decidable (s.Done size n) := inferInstanceAs (Decidable (_ = _))

def passes (step n : ℕ) : ℕ → Sorting → Sorting
  | 0, s => s
  | fuel + 1, s => if s.Done size n then s else passes step n fuel (pass cmp size step n s)

/-- `iflag`: elements are copied in `int`s if size and address allow it. -/
def copyStep (base : ℕ) : ℕ := if size % isize = 0 ∧ base % isize = 0 then isize else 1

/-- The state before the outer loop, with the scratch array at `list2`. -/
def start (base list2 n : ℕ) (mem : Mem) : Sorting :=
  { mem := setup cmp size base list2 n mem, list1 := base, list2, big := false }

/-- `mergesort`, when `malloc` returns `list2`; `none` is `EINVAL`. -/
def mergesort (base list2 n : ℕ) (mem : Mem) : Option Mem :=
  if size < psize / 2 then none
  else
    let s := passes cmp size (copyStep size base) n n (start cmp size base list2 n mem)
    -- the sorted elements are in `list1`
    if base = s.list2 then some (s.mem.put s.list2 (slice s.mem.byte s.list1 (n * size)))
    else some s.mem

end

end Bsdi.Mergesort
