import Bsdi.Lib.Ranges
import Mathlib.Tactic.Ring

/-!
# Radix sort

`radixsort.c`. An array of pointers is a function of its places, and the strings lie in a memory of
bytes. A loop that does not end has no result, and neither has one that leaves `count[]`.
-/

namespace Bsdi.Stdlib

open Bsdi.Lib Function

abbrev UChar := Fin 256

def threshold : ℕ := 20

/-- `SIZE`. -/
def stackSize : ℕ := 512

structure Task where
  sa : ℕ
  sn : ℕ
  si : ℕ

structure Tally where
  count : ℕ → ℕ
  nc : ℕ
  bmin : ℕ

structure RadixState where
  a : ℕ → ℕ
  tally : Tally

/-- The table for `tab == NULL`. -/
def tr0 (endch c : UChar) : UChar := if c < endch then c + 1 else if c = endch then 0 else c

/-- `SETUP`: the table and the weight of the terminator. -/
def setup (tab : Option (UChar → UChar)) (endch : UChar) : Option ((UChar → UChar) × ℕ) :=
  match tab with
  | none => some (tr0 endch, 0)
  | some tr =>
    if (tr endch : ℕ) ≠ 0 ∧ (tr endch : ℕ) ≠ 255 then none else some (tr, tr endch)

/-- In a table, the weight of the terminator is 0 or 255, and no other byte has it. -/
def TableOk (endch : UChar) : Option (UChar → UChar) → Prop
  | none => True
  | some tr => (tr endch = 0 ∨ tr endch = 255) ∧ ∀ c, tr c = tr endch → c = endch

section

variable (text : ℕ → UChar) (tr : UChar → UChar) (endch : ℕ)

/-- `tr[p[i]]`. -/
def weight (p i : ℕ) : ℕ := tr (text (p + i))

/-- The comparison loop: `ch` and `tr[*t]`. -/
def compareFrom : ℕ → ℕ → ℕ → Option (ℕ × ℕ)
  | 0, _, _ => none
  | fuel + 1, s, t =>
    let ch : ℕ := tr (text s)
    if ch ≠ endch ∧ ch = tr (text t) then compareFrom fuel (s + 1) (t + 1)
    else some (ch, tr (text t))

/-- The inner loop, with `k` elements before `ai`. -/
def insertDown (fuel a b : ℕ) : ℕ → (ℕ → ℕ) → Option (ℕ → ℕ)
  | 0, A => some A
  | k + 1, A => do
    let ai := a + k + 1
    let (ch, ct) ← compareFrom text tr endch fuel (A ai + b) (A (ai - 1) + b)
    if ct ≤ ch then some A
    else insertDown fuel a b k (update (update A ai (A (ai - 1))) (ai - 1) (A ai))

/-- The outer loop, for `m` more elements behind the first `k`. -/
def insertAll (fuel a b : ℕ) : ℕ → ℕ → (ℕ → ℕ) → Option (ℕ → ℕ)
  | 0, _, A => some A
  | m + 1, k, A => do
    let A ← insertDown text tr endch fuel a b k A
    insertAll fuel a b m (k + 1) A

def simplesort (fuel a n b : ℕ) (A : ℕ → ℕ) : Option (ℕ → ℕ) :=
  insertAll text tr endch fuel a b (n - 1) 1 A

/-- The body of the loop, for a string with weight `c`. -/
def tally (t : Tally) (c : ℕ) : Tally :=
  if t.count c + 1 = 1 ∧ c ≠ endch then
    ⟨update t.count c (t.count c + 1), t.nc + 1, if c < t.bmin then c else t.bmin⟩
  else { t with count := update t.count c (t.count c + 1) }

/-- The loop, for strings with the weights `ws`. -/
def histogram (ws : List ℕ) (t : Tally) : Tally :=
  ws.foldl (tally endch) { t with bmin := 255 }

structure Piles where
  ak : ℕ
  count : ℕ → ℕ
  nc : ℕ
  bigc : ℕ
  /-- `sp1 - sp0`. -/
  big : ℕ
  /-- The entries from `sp0` up to `sp`. -/
  pushed : List Task
  top : ℕ → ℕ

/-- `r_sort_b` resets the count of a bin here, `r_sort_a` does so later. -/
def reset (clear : Bool) (count : ℕ → ℕ) (c : ℕ) : ℕ → ℕ :=
  if clear then update count c 0 else count

def eosPile (clear : Bool) (a n : ℕ) (t : Tally) : Piles :=
  if endch = 0 then
    ⟨a + t.count 0, reset clear t.count 0, t.nc, 2, 0, [], update 0 0 (a + t.count 0)⟩
  else ⟨a, reset clear t.count 255, t.nc, 2, 0, [], update 0 255 (a + n)⟩

/-- The bin of `cp`, which is not empty. -/
def pile (clear : Bool) (i cp : ℕ) (p : Piles) : Piles :=
  let c := p.count cp
  { ak := p.ak + c
    count := reset clear p.count cp
    nc := p.nc - 1
    bigc := if 1 < c ∧ p.bigc < c then c else p.bigc
    big := if 1 < c ∧ p.bigc < c then p.pushed.length else p.big
    pushed := if 1 < c then p.pushed ++ [⟨p.ak, c, i + 1⟩] else p.pushed
    top := update p.top cp (p.ak + c) }

def piles (clear : Bool) (i : ℕ) : ℕ → ℕ → Piles → Option Piles
  | 0, _, _ => none
  | fuel + 1, cp, p =>
    if p.nc = 0 then some p
    else if p.count cp = 0 then piles clear i fuel (cp + 1) p
    else piles clear i fuel (cp + 1) (pile clear i cp p)

/-- `swap(*sp0, *sp1, temp)`, where nothing may have been pushed. -/
def bigLast (pushed : List Task) (k : ℕ) : List Task :=
  if h : 0 < pushed.length ∧ k < pushed.length then
    (pushed.set 0 (pushed.get ⟨k, h.2⟩)).set k (pushed.get ⟨0, h.1⟩)
  else pushed

/-- The inner loop of the permutation: the array, `top[]`, `r` and `c`. Before the first place of
the array lies none that the loop writes to, so that `top[c] - 1` may be the place itself. -/
def bringHome (i aj : ℕ) : ℕ → (ℕ → ℕ) → (ℕ → ℕ) → ℕ → Option ((ℕ → ℕ) × (ℕ → ℕ) × ℕ × ℕ)
  | 0, _, _, _ => none
  | fuel + 1, A, top, r =>
    let c := weight text tr r i
    let ak := top c - 1
    if aj < ak then bringHome i aj fuel (update A ak r) (update top c ak) (A ak)
    else some (A, update top c ak, r, c)

def permute (i an : ℕ) : ℕ → ℕ → (ℕ → ℕ) → (ℕ → ℕ) → (ℕ → ℕ) → Option ((ℕ → ℕ) × (ℕ → ℕ))
  | 0, _, _, _, _ => none
  | fuel + 1, aj, A, count, top =>
    if aj < an then do
      let (A, top, r, c) ← bringHome text tr i aj (an + 1) A top (A aj)
      permute i an fuel (aj + count c) (update A aj r) (update count c 0) top
    else some (A, count)

/-- The last loop of `r_sort_b`, with `k` elements before `ak`. -/
def dealOut (i : ℕ) (ta : ℕ → ℕ) : ℕ → (ℕ → ℕ) → (ℕ → ℕ) → (ℕ → ℕ)
  | 0, A, _ => A
  | k + 1, A, top =>
    let c := weight text tr (ta k) i
    dealOut i ta k (update A (top c - 1) (ta k)) (update top c (top c - 1))

/-- A turn of `r_sort_a`, after the histogram: what is pushed, and the new state. -/
def turnA (t : Task) (s : RadixState) : Option (List Task × RadixState) := do
  let p ← piles false t.si (257 - s.tally.bmin) s.tally.bmin
    (eosPile endch false t.sa t.sn s.tally)
  let (A, count) ← permute text tr t.si (t.sa + t.sn) (t.sn + 1) t.sa s.a p.count p.top
  some (bigLast p.pushed p.big, ⟨A, count, p.nc, s.tally.bmin⟩)

/-- A turn of `r_sort_b`. -/
def turnB (t : Task) (s : RadixState) : Option (List Task × RadixState) := do
  let p ← piles true t.si (257 - s.tally.bmin) s.tally.bmin
    (eosPile endch true t.sa t.sn s.tally)
  let ta := fun k => s.a (t.sa + k)
  some (bigLast p.pushed p.big,
    ⟨dealOut text tr t.si ta t.sn s.a p.top, p.count, p.nc, s.tally.bmin⟩)

/-- The loop over the stack, for a direction of the histogram and a deal. Where the stack is too
small, the function calls itself. -/
def stackLoop (order : List ℕ → List ℕ) (turn : Task → RadixState → Option (List Task × RadixState))
    :
    ℕ → List Task → RadixState → Option RadixState
  | 0, _, _ => none
  | _ + 1, [], s => some s
  | fuel + 1, t :: stack, s =>
    if t.sn < threshold then do
      let A ← simplesort text tr endch fuel t.sa t.sn t.si s.a
      stackLoop order turn fuel stack { s with a := A }
    else if s.tally.nc = 0 then
      let ws := (vals s.a t.sa (t.sa + t.sn)).map fun p => weight text tr p t.si
      let s := { s with tally := histogram endch (order ws) s.tally }
      if stackSize < stack.length + s.tally.nc then do
        let s ← stackLoop order turn fuel [t] s
        stackLoop order turn fuel stack s
      else do
        let (pushed, s) ← turn t s
        stackLoop order turn fuel (pushed.reverse ++ stack) s
    else do
      let (pushed, s) ← turn t s
      stackLoop order turn fuel (pushed.reverse ++ stack) s

def rSortA (fuel a n i : ℕ) (s : RadixState) : Option RadixState :=
  stackLoop text tr endch id (turnA text tr endch) fuel [⟨a, n, i⟩] s

def rSortB (fuel a n i : ℕ) (s : RadixState) : Option RadixState :=
  stackLoop text tr endch List.reverse (turnB text tr endch) fuel [⟨a, n, i⟩] s

end

variable (text : ℕ → UChar) (fuel n : ℕ) (tab : Option (UChar → UChar)) (endch : UChar)

/-- `radixsort` of the array of `n` pointers. -/
def radixsort (s : RadixState) : Option (ℤ × RadixState) :=
  match setup tab endch with
  | none => some (-1, s)
  | some (tr, e) => do
    let s ← rSortA text tr e fuel 0 n 0 s
    some (0, s)

/-- `sradixsort`. Whether there is memory for the second array is not known. -/
def sradixsort (memory : Bool) (s : RadixState) : Option (ℤ × RadixState) :=
  match setup tab endch with
  | none => some (-1, s)
  | some (tr, e) =>
    if n < threshold then do
      let A ← simplesort text tr e fuel 0 n 0 s.a
      some (0, { s with a := A })
    else if memory then do
      let s ← rSortB text tr e fuel 0 n 0 s
      some (0, s)
    else some (-1, s)

end Bsdi.Stdlib
