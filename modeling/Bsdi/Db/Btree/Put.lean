import Bsdi.Db.Btree.Delete
import Bsdi.Db.Btree.Split

/-!
# Inserting, and opening a tree

`bt_put.c`. A pair that is too big for its page goes to overflow pages first.
While the keys arrive in order, `bt_fast` finds the position from the last one
instead of a search. Of `__bt_open` the choice of the parameters of a tree, the root of a new tree,
and the default comparison and prefix functions.
-/

namespace Bsdi.Db

namespace Btree

variable (c : Config)

def ovflKey (t : Btree) (bl : BLeaf) : Except Fault (Btree × BLeaf) := do
  let (pg, t) ← ovflPut c t bl.key
  .ok (t, { bl with key := ovflRef pg bl.key.length, bigkey := true })

def ovflData (t : Btree) (bl : BLeaf) : Except Fault (Btree × BLeaf) := do
  let (pg, t) ← ovflPut c t bl.data
  .ok (t, { bl with data := ovflRef pg bl.data.length, bigdata := true })

def tooBig (bl : BLeaf) : Bool := c.ovflsize < bl.key.length + bl.data.length

/-- The jumps back to `storekey`. Every round takes a page. -/
def storeLoop : Nat → Bool → Btree → BLeaf → Except Fault (Btree × BLeaf)
  | 0, _, _, _ => .error .nospace
  | fuel + 1, storekey, t, bl => do
    let (t, bl) ← if storekey then ovflKey c t bl else .ok (t, bl)
    let (t, bl) ← if tooBig c bl then ovflData c t bl else .ok (t, bl)
    if tooBig c bl then storeLoop fuel true t bl else .ok (t, bl)

/-- The pair as it is stored on a leaf page. The key goes to overflow pages only
if the pair is too big with the data there. -/
def storePair (t : Btree) (key data : Dbt) : Except Fault (Btree × BLeaf) :=
  if tooBig c ⟨key, data, false, false⟩ then
    storeLoop c (c.maxpages + 1) (c.ovflsize < key.length) t ⟨key, data, false, false⟩
  else .ok (t, ⟨key, data, false, false⟩)

/-- The quick check of `bt_fast` on page `h`: the position and the comparison with
the last insert, or nothing on a miss. -/
def fastHit (t : Btree) (bl : BLeaf) (h : Page) : Except Fault (Option (Nat × Bool)) :=
  if h.room c.psize < (Item.bl bl).nbytes + indxSize then .ok none
  else if t.order = .forward then
    if h.nextpg ≠ pInvalid ∨ t.last.index + 1 ≠ h.nextindex then .ok none
    else do
      let cmp ← btCmp c t bl.key h t.last.index
      .ok (if cmp < 0 then none
        else some (if cmp = 0 then t.last.index else t.last.index + 1, cmp = 0))
  else
    if h.prevpg ≠ pInvalid ∨ t.last.index ≠ 0 then .ok none
    else do
      let cmp ← btCmp c t bl.key h t.last.index
      .ok (if 0 < cmp then none else some (0, cmp = 0))

/-- `bt_fast`. A miss turns the check off. -/
def btFast (t : Btree) (bl : BLeaf) : Except Fault (Btree × Option (Epgno × Bool)) :=
  match t.pages[t.last.pgno]? with
  | none => .ok ({ t with order := .not }, none)
  | some h => do
    let hit ← fastHit c t bl h
    match hit with
    | none => .ok ({ t with order := .not }, none)
    | some (index, exact) =>
      .ok ({ t with last := ⟨t.last.pgno, index⟩ }, some (⟨t.last.pgno, index⟩, exact))

/-- The position for the pair: `bt_fast`, then `__bt_search`. -/
def putSearch (t : Btree) (bl : BLeaf) : Except Fault (Btree × Epgno × Bool) :=
  if t.order = .not then btSearch c t bl.key
  else do
    let (t, hit) ← btFast c t bl
    match hit with
    | some (e, exact) => .ok (t, e, exact)
    | none => btSearch c t bl.key

def cursorUp (t : Btree) (pg index : Nat) : Btree :=
  if t.cursorOn pg ∧ index ≤ t.cursor.pg.index then
    { t with cursor := { t.cursor with pg := ⟨pg, t.cursor.pg.index + 1⟩ } }
  else t

def noteOrder (t : Btree) (h : Page) (index : Nat) : Btree :=
  if t.order = .not then
    if h.nextpg = pInvalid then
      if index + 1 = h.nextindex then { t with order := .forward, last := ⟨h.pgno, index⟩ }
      else t
    else if h.prevpg = pInvalid ∧ index = 0 then
      { t with order := .back, last := ⟨h.pgno, 0⟩ }
    else t
  else t

/-- Insert the pair at `index` of leaf page `pg`, splitting the page if there is
not enough room. -/
def insertLeaf (t : Btree) (pg index : Nat) (bl : BLeaf) : Except Fault Btree := do
  let h ← t.mpoolGet pg
  if h.room c.psize < (Item.bl bl).nbytes + indxSize then btSplit c t pg (.bl bl) index
  else do
    let t ← storeItem c (t.setPage pg (h.openSlot index)) pg index (.bl bl)
    let h ← t.mpoolGet pg
    .ok ((t.cursorUp pg index).noteOrder h index)

/-- The end of `__bt_put`, where the pair is inserted at `e`, in place of the record
there if `delete` is set. -/
def putAt (t : Btree) (e : Epgno) (delete : Bool) (bl : BLeaf) : Except Fault (Ret × Btree) := do
  let t ← if delete then btDleaf c t (some bl.key) e.pgno e.index else .ok t
  let t ← insertLeaf c t e.pgno e.index bl
  .ok (.success, { t with modified := true })

def btPut (t : Btree) (key data : Dbt) (flags : Flag) : Except Fault (Ret × Btree) :=
  if c.rdonly then .ok (.error, t)
  else
    match flags with
    | .none => do
      let (t, bl) ← storePair c t key data
      let (t, e, exact) ← putSearch c t bl
      putAt c t e (exact && c.nodups) bl
    | .nooverwrite => do
      let (t, bl) ← storePair c t key data
      let (t, e, exact) ← putSearch c t bl
      if exact then .ok (.special, t) else putAt c t e false bl
    | .cursor =>
      if t.cursor.init && !(t.cursor.acquire || t.cursor.after || t.cursor.before) then do
        let (t, bl) ← storePair c t key data
        putAt c t t.cursor.pg true bl
      else .ok (.error, t)
    | _ => .ok (.error, t)

end Btree

/-- `__bt_defcmp`. The difference of the sizes is an `int`. -/
def btDefcmp : Dbt → Dbt → Int
  | a :: as, b :: bs =>
    if a ≠ b then (a.toNat : Int) - b.toNat else btDefcmp as bs
  | as, bs => ((as.length : Int) - bs.length).bmod u32Mod

/-- `__bt_defpfx`: the number of bytes needed to tell `b` from `a`. -/
def btDefpfx : Dbt → Dbt → Nat
  | a :: as, b :: bs => if a ≠ b then 1 else 1 + btDefpfx as bs
  | [], _ :: _ => 1
  | as, [] => as.length

/-- `BTREEINFO`, less the cache size and the byte order. A zero or a missing
function asks for the default. -/
structure Btreeinfo where
  dup : Bool
  psize : Nat
  minkeypage : Nat
  compare : Option (Dbt → Dbt → Int)
  pfx : Option (Dbt → Dbt → Nat)

def minpsize : Nat := 512

def defminkeypage : Nat := 2

def maxPageNumber : Nat := 4294967295

/-- The checks of `__bt_open` on the page size and the number of keys per page. -/
def Btreeinfo.valid (b : Btreeinfo) : Bool :=
  (b.psize == 0 || (minpsize ≤ b.psize && b.psize ≤ indxMod && b.psize % indxSize == 0)) &&
    (b.minkeypage == 0 || 2 ≤ b.minkeypage)

/-- The page size of a new tree: the block size of the file unless the user has
chosen one. -/
def openPsize (b : Btreeinfo) (blksize : Nat) : Nat :=
  if b.psize = 0 then min (max blksize minpsize) indxMod else b.psize

/-- `bt_ovflsize`: the number of bytes of a pair that stay on the page. It is an
`indx_t`. -/
def openOvflsize (psize minkeypage : Nat) : Nat :=
  let size := ((psize - btdataoff) / minkeypage + indxMod - (indxSize + nbleafdbt 0 0)) % indxMod
  if size < nbleafdbt novflsize novflsize + indxSize then
    nbleafdbt novflsize novflsize + indxSize
  else size

/-- The parameters `__bt_open` gives to a new tree. -/
def openConfig (b : Btreeinfo) (blksize maxpages : Nat) : Config :=
  let minkeypage := if b.minkeypage = 0 then defminkeypage else b.minkeypage
  { psize := openPsize b blksize
    ovflsize := openOvflsize (openPsize b blksize) minkeypage
    cmp := b.compare.getD btDefcmp
    pfx := match b.compare, b.pfx with
      | none, none => some btDefpfx
      | _, pfx => pfx
    nodups := !b.dup
    rdonly := false
    recno := false
    fixlen := false
    reclen := 0
    bval := 0
    maxpages := maxpages }

namespace Btree

def noCursor : Cursor :=
  { pg := ⟨pInvalid, 0⟩, key := [], rcursor := 0, acquire := false, after := false,
    before := false, init := false }

/-- The root page `nroot` makes: an empty leaf page. -/
def rootPage (type : PageType) : Page :=
  { pgno := pRoot, prevpg := pInvalid, nextpg := pInvalid, type := type, preserve := false,
    linp := [], dead := none, bytes := [] }

def newTree (type : PageType) : Btree :=
  { pages := [junkPage, rootPage type]
    free := pInvalid
    order := .not
    last := ⟨pInvalid, 0⟩
    cursor := noCursor
    stack := []
    nrecs := 0
    modified := false
    metadirty := true }

end Btree

end Bsdi.Db
