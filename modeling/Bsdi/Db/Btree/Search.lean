import Bsdi.Db.Btree.Page

/-!
# Overflow chains, key comparison and searching

`bt_overflow.c`, `__bt_cmp`, `__bt_search` with `__bt_snext` and `__bt_sprev`, `__bt_ret` and
`__bt_get`. The reference to an overflow chain is the number of its first page and the size. A
search leaves the pages it went through on `bt_stack`, which has `stackSize` entries.
-/

namespace Bsdi.Db

def le32 (n : Nat) : Dbt :=
  [UInt8.ofNat n, UInt8.ofNat (n / 256), UInt8.ofNat (n / 65536), UInt8.ofNat (n / 16777216)]

def ofLe32 : Dbt → Nat
  | a :: b :: c :: d :: _ =>
    a.toNat + 256 * b.toNat + 65536 * c.toNat + 16777216 * d.toNat
  | _ => 0

/-- The `{ pgno_t, u_int32_t }` reference to an overflow chain. -/
def ovflRef (pg : Pgno) (size : Nat) : Dbt := le32 pg ++ le32 size

namespace Btree

variable (c : Config)

/-- The payload of an overflow page, `bt_psize - BTDATAOFF`. -/
def plen : Nat := c.psize - btdataoff

/-- The copy loop of `__ovfl_get`. -/
def ovflGetLoop (t : Btree) : Nat → Pgno → Nat → Except Fault Dbt
  | 0, _, _ => .error .garbage
  | fuel + 1, pg, sz => do
    let h ← t.mpoolGet pg
    if sz ≤ plen c then .ok (h.bytes.take sz)
    else do
      let rest ← ovflGetLoop t fuel h.nextpg (sz - plen c)
      .ok (h.bytes.take (plen c) ++ rest)

def ovflGet (t : Btree) (p : Dbt) : Except Fault Dbt :=
  ovflGetLoop c t (ofLe32 (p.drop 4) + 1) (ofLe32 p) (ofLe32 (p.drop 4))

def ovflLink (t : Btree) (last : Option Pgno) (npg : Pgno) : Except Fault Btree :=
  match last with
  | none => .ok t
  | some pg => do
    let h ← t.mpoolGet pg
    .ok (t.setPage pg { h with nextpg := npg })

/-- The page `__ovfl_put` makes of a new one. -/
def ovflPage (npg : Pgno) (bytes : Dbt) : Page :=
  { pgno := npg, prevpg := pInvalid, nextpg := pInvalid, type := .overflow, preserve := false,
    linp := [], dead := none, bytes := bytes }

/-- The loop of `__ovfl_put`: the first page it stores into. -/
def ovflPutLoop : Nat → Btree → Option Pgno → Dbt → Except Fault (Pgno × Btree)
  | 0, _, _, _ => .error .garbage
  | fuel + 1, t, last, p => do
    let (npg, t) ← btNew c t
    let t ← ovflLink (t.setPage npg (ovflPage npg (p.take (plen c)))) last npg
    if p.length ≤ plen c then .ok (npg, t)
    else do
      let (_, t) ← ovflPutLoop fuel t (some npg) (p.drop (plen c))
      .ok (npg, t)

def ovflPut (t : Btree) (dbt : Dbt) : Except Fault (Pgno × Btree) :=
  ovflPutLoop c (dbt.length + 1) t none dbt

def ovflDeleteLoop : Nat → Btree → Pgno → Nat → Except Fault Btree
  | 0, _, _, _ => .error .garbage
  | fuel + 1, t, pg, sz => do
    let h ← t.mpoolGet pg
    let t ← t.btFree pg
    if sz ≤ plen c then .ok t else ovflDeleteLoop fuel t h.nextpg (sz - plen c)

/-- `__ovfl_delete`. Chains used by internal pages stay. -/
def ovflDelete (t : Btree) (p : Dbt) : Except Fault Btree := do
  let h ← t.mpoolGet (ofLe32 p)
  if h.preserve then .ok t
  else ovflDeleteLoop c (ofLe32 (p.drop 4) + 1) t (ofLe32 p) (ofLe32 (p.drop 4))

def fullKey (t : Btree) (key : Dbt) (bigkey : Bool) : Except Fault Dbt :=
  if bigkey then ovflGet c t key else .ok key

/-- `__bt_cmp`. The left-most key of a level of internal pages compares less
than any user key. -/
def btCmp (t : Btree) (k1 : Dbt) (h : Page) (index : Nat) : Except Fault Int :=
  if index = 0 ∧ h.prevpg = pInvalid ∧ h.type ≠ .bleaf then .ok 1
  else if h.type = .bleaf then do
    let bl ← h.getBleaf index
    let k2 ← fullKey c t bl.key bl.bigkey
    .ok (c.cmp k1 k2)
  else do
    let bi ← h.getBinternal index
    let k2 ← fullKey c t bi.key bi.bigkey
    .ok (c.cmp k1 k2)

/-- The binary search of a page: `(base, false)` when no entry compares equal,
else the index of an equal entry. -/
def btBsearch (t : Btree) (key : Dbt) (h : Page) : Nat → Nat → Nat → Except Fault (Nat × Bool)
  | 0, base, _ => .ok (base, false)
  | fuel + 1, base, lim =>
    if lim = 0 then .ok (base, false)
    else do
      let cmp ← btCmp c t key h (base + lim / 2)
      if cmp = 0 then .ok (base + lim / 2, true)
      else if 0 < cmp then btBsearch t key h fuel (base + lim / 2 + 1) ((lim - 1) / 2)
      else btBsearch t key h fuel base (lim / 2)

/-- `__bt_snext`: an exact match at the start of the next page. -/
def btSnext (t : Btree) (h : Page) (key : Dbt) : Except Fault (Option Epgno) :=
  match t.pages[h.nextpg]? with
  | none => .ok none
  | some e => do
    let cmp ← btCmp c t key e 0
    if cmp = 0 then .ok (some ⟨h.nextpg, 0⟩) else .ok none

/-- `__bt_sprev`: an exact match at the end of the previous page. -/
def btSprev (t : Btree) (h : Page) (key : Dbt) : Except Fault (Option Epgno) :=
  match t.pages[h.prevpg]? with
  | none => .ok none
  | some e => do
    let cmp ← btCmp c t key e (e.nextindex - 1)
    if cmp = 0 then .ok (some ⟨h.prevpg, e.nextindex - 1⟩) else .ok none

/-- What `__bt_search` returns from a leaf page without an exact match at
`base`: with duplicates, the adjacent pages may have one. -/
def btSearchEnd (t : Btree) (key : Dbt) (h : Page) (pg base : Nat) :
    Except Fault (Epgno × Bool) := do
  if c.nodups then .ok (⟨pg, base⟩, false)
  else
    let left ← if base = 0 ∧ h.prevpg ≠ pInvalid then btSprev c t h key else .ok none
    match left with
    | some e => .ok (e, true)
    | none =>
      let right ← if base = h.nextindex ∧ h.nextpg ≠ pInvalid then btSnext c t h key
        else .ok none
      match right with
      | some e => .ok (e, true)
      | none => .ok (⟨pg, base⟩, false)

/-- The descent of `__bt_search` from page `pg`, with room for `fuel - 1` more
entries on the stack. -/
def btSearchFrom (key : Dbt) : Nat → Btree → Pgno → Except Fault (Btree × Epgno × Bool)
  | 0, _, _ => .error .stackOverflow
  | fuel + 1, t, pg => do
    let h ← t.mpoolGet pg
    let (base, hit) ← btBsearch c t key h h.nextindex 0 h.nextindex
    if h.type = .bleaf then
      if hit then .ok (t, ⟨pg, base⟩, true)
      else do
        let (e, exact) ← btSearchEnd c t key h pg base
        .ok (t, e, exact)
    else do
      let index := if hit then base else base - 1
      let bi ← h.getBinternal index
      btSearchFrom key fuel { t with stack := ⟨h.pgno, index⟩ :: t.stack } bi.pgno

/-- `__bt_search`: the position of the key and whether it is there. -/
def btSearch (t : Btree) (key : Dbt) : Except Fault (Btree × Epgno × Bool) :=
  btSearchFrom c key (stackSize + 1) { t with stack := [] } pRoot

/-- The data part of `__bt_ret`. -/
def btRetData (t : Btree) (bl : BLeaf) : Except Fault Dbt :=
  if bl.bigdata then ovflGet c t bl.data else .ok bl.data

def btGet (t : Btree) (key : Dbt) (flags : Flag) :
    Except Fault (Ret × Option Dbt × Btree) :=
  if flags ≠ .none then .ok (.error, none, t)
  else do
    let (t, e, exact) ← btSearch c t key
    if exact then do
      let h ← t.mpoolGet e.pgno
      let bl ← h.getBleaf e.index
      let data ← btRetData c t bl
      .ok (.success, some data, t)
    else .ok (.special, none, t)

end Btree

end Bsdi.Db
