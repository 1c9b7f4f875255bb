import Bsdi.Lib.Memory
import Mathlib.Tactic.Ring

/-!
# Big pairs

`hash_bigkey.c`: a pair that does not fit on an empty page is cut into pieces on a chain of overflow
pages. A page has a table of `u_int16_t` at its top, and its pieces end at its bottom.
-/

namespace Bsdi.Db.Hash.Big

open Bsdi.Lib

/-- A page. The table holds the number of entries, the entries, `FREESPACE` and `OFFSET`. -/
structure Page where
  entries : List ℕ
  freespace : ℕ
  offset : ℕ
  byte : ℕ → UInt8

/-- `bp[i]`. -/
def Page.word (p : Page) (i : ℕ) : ℕ :=
  (p.entries.length :: (p.entries ++ [p.freespace, p.offset])).getD i 0

/-- `bp[0]`. -/
def Page.n (p : Page) : ℕ := p.entries.length

def ovflpage : ℕ := 0

def partialKey : ℕ := 1

def fullKey : ℕ := 2

def fullKeyData : ℕ := 3

def bigoverhead : ℕ := 8

def ovflsize : ℕ := 4

/-- `PAGE_META`: the size of a table of `n` entries. -/
def pageMeta (n : ℕ) : ℕ := (n + 3) * 2

/-- A difference that is stored in a `u_int16_t`. -/
def sub16 (a b : ℕ) : ℕ := (a + (2 ^ 16 - b % 2 ^ 16)) % 2 ^ 16

/-- The overflow pages that have been handed out, by their address. -/
structure Pages where
  page : ℕ → Page
  count : ℕ

def Pages.set (s : Pages) (a : ℕ) (p : Page) : Pages := ⟨Function.update s.page a p, s.count⟩

section

variable (bsize : ℕ) (ovfl : ℕ → ℕ)

def pageInit (p : Page) : Page :=
  { p with
    entries := []
    freespace := sub16 bsize 6
    offset := bsize % 2 ^ 16 }

/-- `__add_ovflpage`, when `overflow_page` returns the address `ovfl i` for page number `i`: the
new page is linked behind the page at `a`. -/
def addOvflpage (s : Pages) (a : ℕ) : ℕ × Pages :=
  let num := ovfl s.count
  let p := s.page a
  let s := s.set a { p with
    entries := p.entries ++ [num, ovflpage]
    freespace := sub16 p.freespace ovflsize }
  (num, ⟨(s.set num (pageInit bsize (s.page num))).page, s.count + 1⟩)

/-- A piece is stored, and its entry; `none` when the table does not fit on the page. -/
def Page.push (p : Page) (piece : List UInt8) (tag : ℕ) : Option Page :=
  let off := sub16 p.offset piece.length
  let n := p.n + 2
  if pageMeta n ≤ bsize then
    some {
      entries := p.entries ++ [off, tag]
      freespace := sub16 off (pageMeta n)
      offset := off
      byte := store p.byte off piece }
  else none

/-- The end of the key: the data begins on its page if there is room. It returns the page and what
is left of the data. -/
def Page.endKey (p : Page) (val : List UInt8) : Page × List UInt8 :=
  if p.freespace ≠ 0 then
    let moveBytes := min p.freespace val.length
    let off := sub16 p.offset moveBytes
    ({
      entries := (p.entries.set (p.n - 1) off).set (p.n - 3) fullKeyData
      freespace := sub16 p.freespace moveBytes
      offset := off
      byte := store p.byte off (val.take moveBytes) }, val.drop moveBytes)
  else ({ p with entries := p.entries.set (p.n - 3) fullKey }, val)

/-- "First move the Key": the loop returns the page behind the key and what is left of the data. -/
def moveKey : ℕ → ℕ → List UInt8 → List UInt8 → Pages → Option (ℕ × List UInt8 × Pages)
  | _, a, [], val, s => some (a, val, s)
  | 0, _, _ :: _, _, _ => none
  | fuel + 1, a, key, val, s =>
    let p := s.page a
    let moveBytes := min (sub16 p.freespace bigoverhead) key.length
    match p.push bsize (key.take moveBytes) partialKey with
    | none => none
    | some p =>
      let (num, s) := addOvflpage bsize ovfl (s.set a p) a
      let key := key.drop moveBytes
      if key = [] then
        let (p, val) := (s.page a).endKey val
        moveKey fuel num key val (s.set a p)
      else moveKey fuel num key val s

/-- "Now move the data", `size` bytes in all. -/
def moveData (size : ℕ) : ℕ → ℕ → List UInt8 → Pages → Option Pages
  | _, _, [], s => some s
  | 0, _, _ :: _, _ => none
  | fuel + 1, a, val, s =>
    let p := s.page a
    let space := sub16 p.freespace bigoverhead
    let moveBytes := min space val.length
    -- the hack for data that would end where its page does
    let moveBytes := if space = val.length ∧ val.length = size then moveBytes - 1 else moveBytes
    let rest := val.drop moveBytes
    match p.push bsize (val.take moveBytes) (if rest = [] then fullKeyData else fullKey) with
    | none => none
    | some p =>
      let s := s.set a p
      if rest = [] then some s
      else
        let (num, s) := addOvflpage bsize ovfl s a
        moveData size fuel num rest s

/-- `__big_insert`; `none` when it stores past a page or does not end. -/
def bigInsert (a : ℕ) (key val : List UInt8) (s : Pages) : Option Pages :=
  match moveKey bsize ovfl key.length a key val s with
  | none => none
  | some (a, rest, s) => moveData bsize ovfl val.length (rest.length + 1) a rest s

variable (pages : ℕ → Page)

/-- `bp[bp[0] - 1]`: the next page; `none` when there is no such entry. -/
def next (a : ℕ) : Option ℕ :=
  if (pages a).n = 0 then none else some ((pages a).word ((pages a).n - 1))

/-- `__find_bigpair`, for a key of `size` bytes at `kkey`, of which `past` are behind: the index of
the pair, or `none` for -2. -/
def findBigpair (kkey : ℕ → UInt8) (size : ℕ) : ℕ → ℕ → ℕ → ℕ → Option (Option ℕ)
  | 0, _, _, _ => none
  | fuel + 1, a, ndx, past =>
    let p := pages a
    let bytes := sub16 bsize (p.word ndx)
    if bytes ≤ size ∧ p.word (ndx + 1) = partialKey then
      if slice p.byte (p.word ndx) bytes ≠ slice kkey past bytes then some none
      else findBigpair kkey size fuel (p.word (ndx + 2)) 1 (past + bytes)
    else if bytes + past ≠ size ∨ slice p.byte (p.word ndx) bytes ≠ slice kkey past bytes then
      some none
    else some (some ndx)

/-- `__find_last_page`: the page behind the pair, and the last page of the pair. -/
def findLastPage : ℕ → ℕ → Option (ℕ × ℕ)
  | 0, _ => none
  | fuel + 1, a =>
    let p := pages a
    if p.word 2 = fullKeyData ∧ (p.n = 2 ∨ p.word p.n = ovflpage ∨ p.freespace ≠ 0) then
      some (if 2 < p.n then p.word 3 else 0, a)
    else
      match next pages a with
      | none => none
      | some a => findLastPage fuel a

/-- `collect_data`, with `len` bytes before. -/
def collectData : ℕ → ℕ → ℕ → Option (List UInt8)
  | 0, _, _ => none
  | fuel + 1, a, len =>
    let p := pages a
    let mine := slice p.byte (p.word 1) (bsize - p.word 1)
    if p.word 2 = fullKeyData then some mine
    else
      match next pages a with
      | none => none
      | some a =>
        match collectData fuel a (len + mine.length) with
        | none => none
        | some rest => if len + mine.length + rest.length < 1 then none else some (mine ++ rest)

/-- `__big_return` on a page that ends a key. -/
def returnEnd (fuel a ndx : ℕ) : Option (List UInt8) :=
  let p := pages a
  if p.word (ndx + 1) = fullKey then
    match next pages a with
    | none => none
    | some a => collectData bsize pages fuel a 0
  else
    let off := p.word p.n
    let mine := slice p.byte off (p.word 1 - off)
    if p.freespace = 0 then
      match next pages a with
      | none => none
      | some a => (collectData bsize pages fuel a mine.length).map (mine ++ ·)
    else some mine

def bigReturn : ℕ → ℕ → ℕ → Option (List UInt8)
  | 0, _, _ => none
  | fuel + 1, a, ndx =>
    if (pages a).word (ndx + 1) = partialKey then
      match next pages a with
      | none => none
      | some a => bigReturn fuel a 1
    else returnEnd bsize pages fuel a ndx

/-- The loop of `__big_delete`: it returns `rbufp`, `last_bfp` and the pages that it frees. -/
def deleteLoop : ℕ → ℕ → Option ℕ → Bool → List ℕ → Option (ℕ × Option ℕ × List ℕ)
  | 0, _, _, _, _ => none
  | fuel + 1, r, last, keyDone, freed =>
    let p := pages r
    if ¬keyDone ∨ p.word 2 ≠ fullKeyData then
      let keyDone := keyDone ∨ p.word 2 = fullKey ∨ p.word 2 = fullKeyData
      if p.word 2 = fullKeyData ∧ p.freespace ≠ 0 then some (r, last, freed)
      else
        match next pages r with
        | none => none
        | some num => deleteLoop fuel num (some num) keyDone (freed ++ last.toList)
    else some (r, last, freed)

/-- `__big_delete`: the pages that are freed, and the first page. `none` when there is no page to
free or to go to. -/
def bigDelete (fuel a : ℕ) : Option (List ℕ × Page) :=
  match deleteLoop pages fuel a none false [] with
  | none => none
  | some (r, last, freed) =>
    match next pages r, last with
    | some pageno, some last =>
      let n := (pages r).n
      let p := pages a
      let entries := if 2 < n then pageno :: ovflpage :: p.entries.drop 2 else p.entries
      some (freed ++ [r] ++ (if last = r then [] else [last]), {
        entries := entries.take (n - 2)
        freespace := sub16 bsize (pageMeta (n - 2))
        offset := sub16 bsize 1
        byte := p.byte })
    | _, _ => none

end

end Bsdi.Db.Hash.Big
