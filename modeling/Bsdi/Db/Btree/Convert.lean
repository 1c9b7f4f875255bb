import Bsdi.Lib.Fields
import Mathlib.Tactic.Ring

/-!
# Pages in another byte order

`bt_conv.c`. A page is a memory of bytes, read in the byte order of the machine. The filters
walk over the entries of a page while they swap its fields in place, so `__bt_pgout` swaps an
index entry after it has used it and the header last, and `__bt_pgin` the other way around.
-/

namespace Bsdi.Db.Convert

open Bsdi.Lib

abbrev Image := Nat → UInt8

/-- A 16-bit number; `le` says whether the machine has the low byte first. -/
def get16 (le : Bool) (m : Image) (o : Nat) : Nat :=
  if le then (m o).toNat + 256 * (m (o + 1)).toNat else (m (o + 1)).toNat + 256 * (m o).toNat

def get32 (le : Bool) (m : Image) (o : Nat) : Nat :=
  if le then get16 le m o + 65536 * get16 le m (o + 2)
  else get16 le m (o + 2) + 65536 * get16 le m o

def btdataoff : Nat := 20

/-- Where `linp[i]` is. -/
def linpOff (i : Nat) : Nat := btdataoff + 2 * i

/-- `h->linp[i]`. -/
def linp (le : Bool) (m : Image) (i : Nat) : Nat := get16 le m (linpOff i)

/-- `h->flags & P_TYPE`. -/
def pageType (le : Bool) (m : Image) : Nat := get32 le m 12 % 32

def pBinternal : Nat := 1

def pBleaf : Nat := 2

/-- `h->lower`. -/
def lower (le : Bool) (m : Image) : Nat := get16 le m 16

/-- `NEXTINDEX(h)`, an unsigned quotient that is stored into an `indx_t`. -/
def nextindex (le : Bool) (m : Image) : Nat :=
  (lower le m + 2 ^ 32 - btdataoff) % 2 ^ 32 / 2 % 2 ^ 16

/-- `P_BIGDATA` of the flags of an entry. -/
def bigdata (flags : UInt8) : Bool := flags &&& 1 != 0

/-- `P_BIGKEY`. -/
def bigkey (flags : UInt8) : Bool := flags &&& 2 != 0

/-- `M_32_SWAP` and `P_32_SWAP`: four stores from a copy. -/
def swap32 (m : Image) (o : Nat) : Image := fun j =>
  if j = o then m (o + 3)
  else if j = o + 1 then m (o + 2)
  else if j = o + 2 then m (o + 1)
  else if j = o + 3 then m o
  else m j

/-- `M_16_SWAP`. -/
def swap16 (m : Image) (o : Nat) : Image := fun j =>
  if j = o then m (o + 1) else if j = o + 1 then m o else m j

def swapHeader (m : Image) : Image :=
  swap16 (swap16 (swap32 (swap32 (swap32 (swap32 m 0) 4) 8) 12) 16) 18

/-- The body of the loop over the entries of a `P_BINTERNAL` page. -/
def swapBinternal (m : Image) (p : Nat) : Image :=
  let m := swap32 m p
  let m := swap32 m (p + 4)
  if bigkey (m (p + 8)) then swap32 (swap32 m (p + 9)) (p + 9 + 4) else m

/-- The body of the loop over the entries of a `P_BLEAF` page. The reference to overflow data
is looked for four bytes behind `p`, wherever `p` is. -/
def swapBleaf (m : Image) (p : Nat) : Image :=
  let m := swap32 m p
  let m := swap32 m (p + 4)
  let flags := m (p + 8)
  if bigkey flags || bigdata flags then
    let p := p + 9
    let (m, p) := if bigkey flags then (swap32 (swap32 m p) (p + 4), p + 4) else (m, p)
    if bigdata flags then
      let p := p + 4
      swap32 (swap32 m p) (p + 4)
    else m
  else m

/-- An entry in `__bt_pgout`: the index is still that of the machine. -/
def outEntry (le : Bool) (entry : Image → Nat → Image) (m : Image) (i : Nat) : Image :=
  swap16 (entry m (linp le m i)) (linpOff i)

/-- An entry in `__bt_pgin`: the index is swapped first. -/
def inEntry (le : Bool) (entry : Image → Nat → Image) (m : Image) (i : Nat) : Image :=
  let m := swap16 m (linpOff i)
  entry m (linp le m i)

def swapEntries (le : Bool) (step : (Image → Nat → Image) → Image → Nat → Image) (m : Image) :
    Image :=
  if pageType le m = pBinternal then (List.range (nextindex le m)).foldl (step swapBinternal) m
  else if pageType le m = pBleaf then (List.range (nextindex le m)).foldl (step swapBleaf) m
  else m

/-- `mswap`: the words of the metadata page. -/
def mswap (m : Image) : Image :=
  swap32 (swap32 (swap32 (swap32 (swap32 (swap32 m 0) 4) 8) 12) 16) 20

/-- `__bt_pgin`. Page 0 is `P_META`. -/
def btPgin (needswap le : Bool) (pg : Nat) (m : Image) : Image :=
  if !needswap then m
  else if pg = 0 then mswap m
  else swapEntries le (inEntry le) (swapHeader m)

def btPgout (needswap le : Bool) (pg : Nat) (m : Image) : Image :=
  if !needswap then m
  else if pg = 0 then mswap m
  else swapHeader (swapEntries le (outEntry le) m)

/-- The pages an entry can be on: with `leaf`, `P_BLEAF`, else `P_BINTERNAL`. -/
def hasEntries (le : Bool) (m : Image) (leaf : Bool) : Prop :=
  pageType le m = if leaf then pBleaf else pBinternal

def entrySize (le : Bool) (m : Image) (leaf : Bool) (p : Nat) : Nat :=
  9 + get32 le m p + if leaf then get32 le m (p + 4) else 0

/-- A page whose entries are behind the index and do not overlap. An overflow reference takes
eight bytes. -/
structure WellFormed (le : Bool) (psize : Nat) (m : Image) (leaf : Bool) : Prop where
  lower : btdataoff ≤ lower le m
  inside : ∀ i < nextindex le m, linpOff (nextindex le m) ≤ linp le m i ∧
    linp le m i + entrySize le m leaf (linp le m i) ≤ psize
  apart : ∀ i < nextindex le m, ∀ j < nextindex le m, i ≠ j →
    linp le m i + entrySize le m leaf (linp le m i) ≤ linp le m j ∨
      linp le m j + entrySize le m leaf (linp le m j) ≤ linp le m i
  bigkey : ∀ i < nextindex le m, bigkey (m (linp le m i + 8)) = true →
    get32 le m (linp le m i) = 8
  bigdata : leaf = true → ∀ i < nextindex le m, bigdata (m (linp le m i + 8)) = true →
    get32 le m (linp le m i + 4) = 8

def refFields (q : Nat) : List Field := [⟨q, 4⟩, ⟨q + 4, 4⟩]

/-- The fields of an entry: `ksize` and `dsize` or `pgno`, and its overflow references. -/
def entryFields (le : Bool) (m : Image) (leaf : Bool) (p : Nat) : List Field :=
  refFields p ++ (if bigkey (m (p + 8)) then refFields (p + 9) else []) ++
    (if leaf && bigdata (m (p + 8)) then refFields (p + 9 + get32 le m p) else [])

def headerFields : List Field := [⟨0, 4⟩, ⟨4, 4⟩, ⟨8, 4⟩, ⟨12, 4⟩, ⟨16, 2⟩, ⟨18, 2⟩]

def metaFields : List Field := [⟨0, 4⟩, ⟨4, 4⟩, ⟨8, 4⟩, ⟨12, 4⟩, ⟨16, 4⟩, ⟨20, 4⟩]

def pageFields (le : Bool) (m : Image) : List Field :=
  if pageType le m = pBinternal then
    headerFields ++ (List.range (nextindex le m)).flatMap fun i =>
      ⟨linpOff i, 2⟩ :: entryFields le m false (linp le m i)
  else if pageType le m = pBleaf then
    headerFields ++ (List.range (nextindex le m)).flatMap fun i =>
      ⟨linpOff i, 2⟩ :: entryFields le m true (linp le m i)
  else headerFields

end Bsdi.Db.Convert
