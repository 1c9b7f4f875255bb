import Bsdi.Mergesort.Insertion

/-!
# Quick sort

`qsort.c`, on the memory of `Bsdi.Mergesort`. An array has fewer than `2 ^ 31` bytes. A comparison
or an exchange of what is no element of the array has no result, and neither has a loop that does
not end. The answer of the comparison function may depend on how often it was called.
-/

namespace Bsdi.Stdlib

open Bsdi.Lib Bsdi.Mergesort

/-- The process: its memory, and the calls of `cmp` so far. -/
structure Proc where
  mem : Mem
  calls : ℕ

/-- `sizeof(long)`. -/
def sizeofLong : ℕ := 4

/-- A turn of `swapcode` for a type of `w` bytes. -/
def exchange (w pi pj : ℕ) (mem : Mem) : Mem :=
  (mem.put pi (slice mem.byte pj w)).put pj (slice mem.byte pi w)

/-- The loop of `swapcode`. -/
def swapLoop (w : ℕ) : ℕ → ℕ → ℕ → Mem → Mem
  | 0, _, _, mem => mem
  | i + 1, pi, pj, mem => swapLoop w i (pi + w) (pj + w) (exchange w pi pj mem)

/-- `swapcode`. The loop has at least one turn. -/
def swapcode (w a b n : ℕ) (mem : Mem) : Mem := swapLoop w (max (n / w) 1) a b mem

def swapinit (a es : ℕ) : ℕ :=
  if a % sizeofLong ≠ 0 ∨ es % sizeofLong ≠ 0 then 2 else if es = sizeofLong then 0 else 1

section

variable (cmp : ℕ → Elem → Elem → ℤ) (es lo hi : ℕ)

/-- The array lies from `lo` up to `hi`; these are `n` bytes of it, from an element on. -/
def Inside (p n : ℕ) : Prop := lo ≤ p ∧ p + n ≤ hi ∧ (p - lo) % es = 0

instance (p n : ℕ) : Decidable (Inside es lo hi p n) := inferInstanceAs (Decidable (_ ∧ _))

/-- A call of `cmp`. -/
def compare (p q : ℕ) (s : Proc) : Option (ℤ × Proc) :=
  if Inside es lo hi p es ∧ Inside es lo hi q es then
    some (cmp s.calls (elt es s.mem p) (elt es s.mem q), { s with calls := s.calls + 1 })
  else none

def swapfunc (a b n swaptype : ℕ) (s : Proc) : Option Proc :=
  if Inside es lo hi a n ∧ Inside es lo hi b n then
    some { s with mem := swapcode (if swaptype ≤ 1 then sizeofLong else 1) a b n s.mem }
  else none

/-- The macro `swap`. -/
def swap (a b swaptype : ℕ) (s : Proc) : Option Proc :=
  if swaptype = 0 then
    if Inside es lo hi a sizeofLong ∧ Inside es lo hi b sizeofLong then
      some { s with mem := exchange sizeofLong a b s.mem }
    else none
  else swapfunc es lo hi a b es swaptype s

def vecswap (a b n swaptype : ℕ) (s : Proc) : Option Proc :=
  if 0 < n then swapfunc es lo hi a b n swaptype s else some s

/-- The inner loop, with `k` elements before `pl`. -/
def insertInner (a swaptype : ℕ) : ℕ → Proc → Option Proc
  | 0, s => some s
  | k + 1, s => do
    let pl := a + (k + 1) * es
    let (r, s) ← compare cmp es lo hi (pl - es) pl s
    if 0 < r then
      let s ← swap es lo hi pl (pl - es) swaptype s
      insertInner a swaptype k s
    else some s

/-- The outer loop, for `m` more elements behind the first `k`. -/
def insertOuter (a swaptype : ℕ) : ℕ → ℕ → Proc → Option Proc
  | 0, _, s => some s
  | m + 1, k, s => do
    let s ← insertInner cmp es lo hi a swaptype k s
    insertOuter a swaptype m (k + 1) s

def med3 (a b c : ℕ) (s : Proc) : Option (ℕ × Proc) := do
  let (r, s) ← compare cmp es lo hi a b s
  if r < 0 then
    let (r, s) ← compare cmp es lo hi b c s
    if r < 0 then some (b, s)
    else
      let (r, s) ← compare cmp es lo hi a c s
      some (if r < 0 then c else a, s)
  else
    let (r, s) ← compare cmp es lo hi b c s
    if 0 < r then some (b, s)
    else
      let (r, s) ← compare cmp es lo hi a c s
      some (if r < 0 then a else c, s)

/-- The choice of `pm`. -/
def pivot (a n : ℕ) (s : Proc) : Option (ℕ × Proc) := do
  let pm := a + n / 2 * es
  if 7 < n then
    let pl := a
    let pn := a + (n - 1) * es
    if 40 < n then
      let d := n / 8 * es
      let (pl, s) ← med3 cmp es lo hi pl (pl + d) (pl + 2 * d) s
      let (pm, s) ← med3 cmp es lo hi (pm - d) pm (pm + d) s
      let (pn, s) ← med3 cmp es lo hi (pn - 2 * d) (pn - d) pn s
      med3 cmp es lo hi pl pm pn s
    else med3 cmp es lo hi pl pm pn s
  else some (pm, s)

structure Part where
  pa : ℕ
  pb : ℕ
  pc : ℕ
  pd : ℕ
  swapCnt : Bool
  s : Proc

/-- The loop that moves `pb` up. -/
def scanUp (a swaptype : ℕ) : ℕ → Part → Option Part
  | 0, _ => none
  | fuel + 1, p =>
    if p.pb ≤ p.pc then do
      let (r, s) ← compare cmp es lo hi p.pb a p.s
      if r ≤ 0 then
        if r = 0 then
          let s ← swap es lo hi p.pa p.pb swaptype s
          scanUp a swaptype fuel
            { p with pa := p.pa + es, pb := p.pb + es, swapCnt := true, s := s }
        else scanUp a swaptype fuel { p with pb := p.pb + es, s := s }
      else some { p with s := s }
    else some p

/-- The loop that moves `pc` down. -/
def scanDown (a swaptype : ℕ) : ℕ → Part → Option Part
  | 0, _ => none
  | fuel + 1, p =>
    if p.pb ≤ p.pc then do
      let (r, s) ← compare cmp es lo hi p.pc a p.s
      if 0 ≤ r then
        if r = 0 then
          let s ← swap es lo hi p.pc p.pd swaptype s
          scanDown a swaptype fuel
            { p with pc := p.pc - es, pd := p.pd - es, swapCnt := true, s := s }
        else scanDown a swaptype fuel { p with pc := p.pc - es, s := s }
      else some { p with s := s }
    else some p

/-- The loop of the partition; `n` turns of a loop suffice. -/
def partition (a n swaptype : ℕ) : ℕ → Part → Option Part
  | 0, _ => none
  | fuel + 1, p => do
    let p ← scanUp cmp es lo hi a swaptype (n + 1) p
    let p ← scanDown cmp es lo hi a swaptype (n + 1) p
    if p.pc < p.pb then some p
    else
      let s ← swap es lo hi p.pb p.pc swaptype p.s
      partition a n swaptype fuel
        { p with pb := p.pb + es, pc := p.pc - es, swapCnt := true, s := s }

/-- `qsort`. The jump to `loop` is a call. -/
def qsortLoop : ℕ → ℕ → ℕ → Proc → Option Proc
  | 0, _, _, _ => none
  | fuel + 1, a, n, s => do
    let swaptype := swapinit a es
    if n < 7 then insertOuter cmp es lo hi a swaptype (n - 1) 1 s
    else
      let (pm, s) ← pivot cmp es lo hi a n s
      let s ← swap es lo hi a pm swaptype s
      let last := a + (n - 1) * es
      let p ← partition cmp es lo hi a n swaptype (n + 1) ⟨a + es, a + es, last, last, false, s⟩
      if p.swapCnt = false then insertOuter cmp es lo hi a swaptype (n - 1) 1 p.s
      else
        let pn := a + n * es
        let r := min (p.pa - a) (p.pb - p.pa)
        let s ← vecswap es lo hi a (p.pb - r) r swaptype p.s
        let r := min (p.pd - p.pc) (pn - p.pd - es)
        let s ← vecswap es lo hi p.pb (pn - r) r swaptype s
        let r := p.pb - p.pa
        let s ← if es < r then qsortLoop fuel a (r / es) s else some s
        let r := p.pd - p.pc
        if es < r then qsortLoop fuel (pn - r) (r / es) s else some s

end

/-- `qsort`, of the array of `n` elements at `a`. -/
def qsort (cmp : ℕ → Elem → Elem → ℤ) (a n es : ℕ) (s : Proc) : Option Proc :=
  qsortLoop cmp es a (a + n * es) (n + 1) a n s

end Bsdi.Stdlib
