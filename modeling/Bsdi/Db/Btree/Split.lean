import Bsdi.Db.Btree.Search

/-!
# Splitting pages

`bt_split.c`. The split of a page leaves one slot open on one of the two
halves; the caller stores the new item there and then carries the first key of
the right half to the parent, which it finds on `bt_stack`.
-/

namespace Bsdi.Db

namespace Btree

/-- The loop of `bt_psplit` that fills the left page. It returns `off`, the last
index of the left page, and `nxt`, the first item of the right page. -/
def psplitScan (full half skip ilen : Nat) : List Item → Nat → Nat → Nat → Nat → Nat × Nat
  | [], off, nxt, _, _ => (off, nxt)
  | item :: rest, off, nxt, used, bigkeycnt =>
    -- `off` is an `indx_t`: before slot 0 it wraps
    if skip = off ∧ full ≤ used + ilen then ((off + indxMod - 1) % indxMod, nxt)
    else if skip = off ∧ half ≤ used + ilen then (off, nxt)
    else
      -- past the slot left open, the loop goes on with this item
      let used := if skip = off then used + ilen else used
      let off := if skip = off then off + 1 else off
      if skip ≤ off ∧ full ≤ used + item.nbytes then (off - 1, nxt)
      else if half ≤ used + item.nbytes ∧ (item.isBigkey = false ∨ bigkeycnt = 3) then
        (off, nxt + 1)
      else
        psplitScan full half skip ilen rest (off + 1) (nxt + 1) (used + item.nbytes)
          (if half ≤ used + item.nbytes then bigkeycnt + 1 else bigkeycnt)

/-- The index of the left page: `nxt` items, slot `skip` left open when it is on
this page, and `off + 1` slots in all, as far as `lower` can count them. -/
def psplitLeft (items : List Item) (off nxt skip : Nat) : List (Option Item) :=
  let slots := (items.take nxt).map some
  let slots := if skip ≤ off then slots.insertIdx skip none else slots
  let count := (off + 1) % (indxMod / indxSize)
  slots.take count ++ List.replicate (count - slots.length) none

def psplitRight : Nat → Nat → List Item → List (Option Item)
  | skip, nxt, [] => if skip = nxt then [none] else []
  | skip, nxt, item :: rest =>
    if skip = nxt then none :: some item :: psplitRight 0 (nxt + 1) rest
    else some item :: psplitRight skip (nxt + 1) rest

/-- The outcome of `bt_psplit`: the two indices, whether the open slot is on the
left page, its position there and the number of items that went left. -/
structure Psplit where
  left : List (Option Item)
  right : List (Option Item)
  onLeft : Bool
  skip : Nat
  nxt : Nat

/-- The rest of `bt_psplit`, once the left page is filled up to `cut`. -/
def psplitAt (items : List Item) (skip : Nat) (cut : Nat × Nat) : Psplit :=
  if skip ≤ cut.1 then
    { left := psplitLeft items cut.1 cut.2 skip
      right := psplitRight 0 cut.2 (items.drop cut.2)
      onLeft := true, skip := skip, nxt := cut.2 }
  else
    { left := psplitLeft items cut.1 cut.2 skip
      right := psplitRight skip cut.2 (items.drop cut.2)
      onLeft := false, skip := skip - cut.2, nxt := cut.2 }

def btPsplit (c : Config) (items : List Item) (skip ilen : Nat) : Psplit :=
  let full := c.psize - btdataoff
  psplitAt items skip (psplitScan full (full / 2) skip ilen items 0 0 0 0)

/-- The adjustment of a cursor on the page that `bt_psplit` divides. -/
def psplitCursor (cur : Cursor) (pg l r skip nxt : Nat) : Cursor :=
  if cur.init ∧ cur.pg.pgno = pg then
    let index := if skip ≤ cur.pg.index then cur.pg.index + 1 else cur.pg.index
    if index < nxt then { cur with pg := ⟨l, index⟩ }
    else { cur with pg := ⟨r, index - nxt⟩ }
  else cur

/-- The result of `bt_page` and `bt_root`: the two pages, the one with the open
slot, and the slot. -/
structure Halves where
  left : Pgno
  right : Pgno
  target : Pgno
  skip : Nat

variable (c : Config)

/-- `bt_page`: split a page that is not the root. Appending to the last page of
a level just adds a page. -/
def btPage (t : Btree) (pg : Pgno) (skip ilen : Nat) : Except Fault (Btree × Halves) := do
  let (npg, t) ← btNew c t
  let h ← t.mpoolGet pg
  if h.nextpg = pInvalid ∧ skip = h.nextindex then
    let t := t.setPage npg
      { pgno := npg, prevpg := h.pgno, nextpg := h.nextpg, type := h.type, preserve := false,
        linp := [none], dead := none, bytes := [] }
    let t := t.setPage pg { h with nextpg := npg }
    .ok (t, ⟨pg, npg, npg, 0⟩)
  else do
    let items ← h.items
    let s := btPsplit c items skip ilen
    let t := t.setPage npg
      { pgno := npg, prevpg := h.pgno, nextpg := h.nextpg, type := h.type, preserve := false,
        linp := s.right, dead := none, bytes := [] }
    let t ← relinkSide t h.nextpg fun tp => { tp with prevpg := npg }
    let t := t.setPage pg
      { pgno := h.pgno, prevpg := h.prevpg, nextpg := npg, type := h.type, preserve := false,
        linp := s.left, dead := none, bytes := [] }
    .ok ({ t with cursor := psplitCursor t.cursor h.pgno h.pgno npg skip s.nxt },
      ⟨pg, npg, if s.onLeft then pg else npg, s.skip⟩)

/-- `bt_root`: split the root onto two new pages. The root itself is rewritten
later, by `bt_broot` or `bt_rroot`. -/
def btRoot (t : Btree) (pg : Pgno) (skip ilen : Nat) : Except Fault (Btree × Halves) := do
  let (lnpg, t) ← btNew c t
  let (rnpg, t) ← btNew c t
  let h ← t.mpoolGet pg
  let items ← h.items
  let s := btPsplit c items skip ilen
  let t := t.setPage lnpg
    { pgno := lnpg, prevpg := pInvalid, nextpg := rnpg, type := h.type, preserve := false,
      linp := s.left, dead := none, bytes := [] }
  let t := t.setPage rnpg
    { pgno := rnpg, prevpg := lnpg, nextpg := pInvalid, type := h.type, preserve := false,
      linp := s.right, dead := none, bytes := [] }
  .ok ({ t with cursor := psplitCursor t.cursor h.pgno lnpg rnpg skip s.nxt },
    ⟨lnpg, rnpg, if s.onLeft then lnpg else rnpg, s.skip⟩)

/-- `bt_root` for the root page, `bt_page` for the others. -/
def splitPage (t : Btree) (pg : Pgno) (skip ilen : Nat) : Except Fault (Btree × Halves) :=
  if pg = pRoot then btRoot c t pg skip ilen else btPage c t pg skip ilen

/-- Store an item into an open slot: `h->linp[skip] = h->upper -= n` and the copy
of its bytes. -/
def storeItem (t : Btree) (pg : Pgno) (skip : Nat) (item : Item) : Except Fault Btree := do
  let h ← t.mpoolGet pg
  let h' := { h with linp := h.linp.set skip (some item) }
  if skip < h.nextindex ∧ h'.lower + h'.used ≤ c.psize then .ok (t.setPage pg h')
  else .error .overrun

/-- `bt_preserve`: mark an overflow chain as used by an internal page. -/
def btPreserve (t : Btree) (pg : Pgno) : Except Fault Btree := do
  let h ← t.mpoolGet pg
  .ok (t.setPage pg { h with preserve := true })

/-- `rec_total`: the number of records below an internal page of a recno tree. -/
def recTotal (h : Page) : Nat :=
  (h.linp.map fun slot =>
    match slot with
    | some (.ri item) => item.nrecs
    | _ => 0).sum % u32Mod

/-- `bt_broot`: turn the split root of a btree into an internal page over its two
halves. -/
def btBroot (t : Btree) (pg l r : Pgno) : Except Fault Btree := do
  let h ← t.mpoolGet pg
  let rp ← t.mpoolGet r
  match h.type with
  | .bleaf =>
    let bl ← rp.getBleaf 0
    let t := t.setPage pg
      { h with
        type := .binternal, dead := none
        linp := [some (.bi ⟨[], l, false⟩), some (.bi ⟨bl.key, r, false⟩)] }
    if bl.bigkey then btPreserve t (ofLe32 bl.key) else .ok t
  | .binternal =>
    let bi ← rp.getBinternal 0
    .ok (t.setPage pg
      { h with
        type := .binternal, dead := none
        linp := [some (.bi ⟨[], l, false⟩), some (.bi { bi with pgno := r })] })
  | _ => .error .garbage

def recCount (h : Page) : Nat := if h.type = .rleaf then h.nextindex else recTotal h

/-- `bt_rroot`: the same for the root of a recno tree. -/
def btRroot (t : Btree) (pg l r : Pgno) : Except Fault Btree := do
  let h ← t.mpoolGet pg
  let lp ← t.mpoolGet l
  let rp ← t.mpoolGet r
  .ok (t.setPage pg
    { h with
      type := .rinternal, dead := none
      linp := [some (.ri ⟨recCount lp, l⟩), some (.ri ⟨recCount rp, r⟩)] })

def fixRoot (t : Btree) (pg l r : Pgno) : Except Fault Btree :=
  if pg = pRoot then
    if c.recno then btRroot t pg l r else btBroot t pg l r
  else .ok t

/-- The bytes of a leaf key kept in the parent: enough to tell it from the last
key of the page on its left. The whole key stays next to the left-most key of a
level. -/
def parentKey (first : Bool) (skip : Nat) (tbl bl : BLeaf) : Except Fault Dbt :=
  match c.pfx with
  | none => .ok bl.key
  | some pfx =>
    if bl.bigkey = false ∧ (first = false ∨ 1 < skip) then
      if nbinternal (pfx tbl.key bl.key) < nbinternal bl.key.length then
        -- a length of zero takes the space of no key and stores the whole key
        if pfx tbl.key bl.key = 0 then .error .overrun
        else .ok (bl.key.take (pfx tbl.key bl.key))
      else .ok bl.key
    else .ok bl.key

/-- The entry for the right half of a split in the parent page `h`. -/
def parentItem (h : Page) (skip : Nat) (lchild rchild : Page) : Except Fault Item :=
  match rchild.type with
  | .binternal => do
    let bi ← rchild.getBinternal 0
    .ok (.bi { bi with pgno := rchild.pgno })
  | .bleaf => do
    let bl ← rchild.getBleaf 0
    let tbl ← lchild.getBleaf (lchild.nextindex - 1)
    let key ← parentKey c (h.prevpg = pInvalid) skip tbl bl
    .ok (.bi ⟨key, rchild.pgno, bl.bigkey⟩)
  | .rinternal => .ok (.ri ⟨recTotal rchild, rchild.pgno⟩)
  | .rleaf => .ok (.ri ⟨rchild.nextindex, rchild.pgno⟩)
  | .overflow => .error .garbage

/-- Update the count of the left half in a recno parent: the entry before `skip`,
or the last one of page `l`. -/
def fixCount (t : Btree) (pg l : Pgno) (skip : Nat) (lchild : Page) : Except Fault Btree := do
  let at_ := if 0 < skip then pg else l
  let h ← t.mpoolGet at_
  let index := if 0 < skip then skip - 1 else h.nextindex - 1
  .ok (t.setPage at_ { h with linp := h.linp.set index (some (.ri ⟨recCount lchild, lchild.pgno⟩)) })

def insertParent (t : Btree) (pg l : Pgno) (skip : Nat) (lchild rchild : Page) (item : Item) :
    Except Fault Btree :=
  match rchild.type with
  | .rinternal | .rleaf => do
    let t ← fixCount t pg l skip lchild
    storeItem c t pg skip item
  | .bleaf => do
    let t ← storeItem c t pg skip item
    let bl ← rchild.getBleaf 0
    if bl.bigkey then btPreserve t (ofLe32 bl.key) else .ok t
  | _ => storeItem c t pg skip item

/-- The loop of `__bt_split` over the parents on the stack, from the halves
`lchild` and `rchild` of the page below. -/
def btSplitLoop : List Epgno → Btree → Pgno → Pgno → Except Fault Btree
  | [], t, _, _ => .ok { t with stack := [] }
  | parent :: rest, t, lchild, rchild => do
    let h ← t.mpoolGet parent.pgno
    let lp ← t.mpoolGet lchild
    let rp ← t.mpoolGet rchild
    let item ← parentItem c h (parent.index + 1) lp rp
    if h.room c.psize < item.nbytes + indxSize then do
      let (t, s) ← splitPage c t parent.pgno (parent.index + 1) item.nbytes
      let t ← insertParent c t s.target s.left s.skip lp rp item
      let t ← fixRoot c t parent.pgno s.left s.right
      btSplitLoop rest t s.left s.right
    else do
      let t := t.setPage parent.pgno (h.openSlot (parent.index + 1))
      let t ← insertParent c t parent.pgno lchild (parent.index + 1) lp rp item
      .ok { t with stack := rest }

/-- `__bt_split`: split page `pg` and insert `item` at index `skip`. -/
def btSplit (t : Btree) (pg : Pgno) (item : Item) (skip : Nat) : Except Fault Btree := do
  let (t, s) ← splitPage c t pg skip item.nbytes
  let t ← storeItem c t s.target s.skip item
  let t ← fixRoot c t pg s.left s.right
  btSplitLoop c t.stack t s.left s.right

end Btree

end Bsdi.Db
