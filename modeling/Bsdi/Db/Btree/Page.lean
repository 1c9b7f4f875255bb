import Mathlib.Data.List.Nodup
import Mathlib.Data.List.Flatten
import Mathlib.Tactic.Ring
import Mathlib.Data.List.ReduceOption

/-!
# Pages of the btree and recno access methods

The data model of `btree.h` and the part of `mpool` that the access methods see: a list of pages, by
number. A page is kept at the level of its index, since every routine keeps the items packed at the
end of the page. A slot below `lower` that has not been written yet is `none`.

A `Fault` is a failure that the code reports (`nopage`, `nospace`) or a memory error that it does
not notice.
-/

namespace Bsdi.Db

/-- The bytes of a `DBT`; its `size` is the length. -/
abbrev Dbt := List UInt8

/-- A `pgno_t`. -/
abbrev Pgno := Nat

/-- `P_INVALID`: no page. The metadata page has the same number. -/
def pInvalid : Pgno := 0

/-- `P_ROOT`: the root of the tree. -/
def pRoot : Pgno := 1

/-- `RET_ERROR`, `RET_SUCCESS` and `RET_SPECIAL`. -/
inductive Ret
  | error
  | success
  | special
  deriving DecidableEq

/-- The `R_` flags of the routines; `none` is a flags word of zero. -/
inductive Flag
  | none
  | cursor
  | first
  | iafter
  | ibefore
  | last
  | next
  | nooverwrite
  | prev
  | setcursor
  | recnosync
  deriving DecidableEq

/-- What can stop an operation before it returns a status. -/
inductive Fault
  /-- `mpool_get` of a page that does not exist. -/
  | nopage
  /-- `mpool_new` has no page left. -/
  | nospace
  /-- A store past the end of `bt_stack`. -/
  | stackOverflow
  /-- An item that does not fit between `lower` and `upper`. -/
  | overrun
  /-- A read of a slot that holds no item of the expected kind. -/
  | garbage
  deriving DecidableEq

/-- `sizeof(indx_t)`. -/
def indxSize : Nat := 2

/-- `BTDATAOFF`: the size of the page header. -/
def btdataoff : Nat := 20

/-- `NOVFLSIZE`: the size of an overflow reference. -/
def novflsize : Nat := 8

/-- `MAX_PAGE_OFFSET + 1`: the number of values of an `indx_t`. -/
def indxMod : Nat := 65536

/-- The number of values of a `u_int32_t`. -/
def u32Mod : Nat := 4294967296

def lalign (n : Nat) : Nat := (n + 3) / 4 * 4

def nbinternal (len : Nat) : Nat := lalign (4 + 4 + 1 + len)

def nbleafdbt (ksize dsize : Nat) : Nat := lalign (4 + 4 + 1 + ksize + dsize)

def nrinternal : Nat := lalign (4 + 4)

def nrleafdbt (dsize : Nat) : Nat := lalign (4 + 1 + dsize)

/-- `BINTERNAL`: a separator and the page below it. With `bigkey` the bytes are
an overflow reference. -/
structure BInternal where
  key : Dbt
  pgno : Pgno
  bigkey : Bool
  deriving DecidableEq

/-- `BLEAF`: a key/data pair. With `bigkey` or `bigdata` the respective bytes
are an overflow reference. -/
structure BLeaf where
  key : Dbt
  data : Dbt
  bigkey : Bool
  bigdata : Bool
  deriving DecidableEq

/-- `RINTERNAL`: a page and the number of records on it and below. -/
structure RInternal where
  nrecs : Nat
  pgno : Pgno
  deriving DecidableEq

/-- `RLEAF`: a record. -/
structure RLeaf where
  data : Dbt
  bigdata : Bool
  deriving DecidableEq

/-- The item a slot of `linp` designates. -/
inductive Item
  | bi (item : BInternal)
  | bl (item : BLeaf)
  | ri (item : RInternal)
  | rl (item : RLeaf)
  deriving DecidableEq

namespace Item

/-- The bytes an item takes on its page: `NBINTERNAL`, `NBLEAF`, `NRINTERNAL`
or `NRLEAF`. -/
def nbytes : Item → Nat
  | bi item => nbinternal item.key.length
  | bl item => nbleafdbt item.key.length item.data.length
  | ri _ => nrinternal
  | rl item => nrleafdbt item.data.length

/-- `P_BIGKEY` of the item. -/
def isBigkey : Item → Bool
  | bi item => item.bigkey
  | bl item => item.bigkey
  | ri _ => false
  | rl _ => false

def child : Item → Option Pgno
  | bi item => some item.pgno
  | ri item => some item.pgno
  | bl _ => none
  | rl _ => none

end Item

/-- The `P_TYPE` bits of a page's flags. -/
inductive PageType
  | binternal
  | bleaf
  | overflow
  | rinternal
  | rleaf
  deriving DecidableEq

/-- `PAGE`. `dead` is the item `linp[0]` still designates after the last record
of a leaf page was deleted; `bytes` is the payload of an overflow page. -/
structure Page where
  pgno : Pgno
  prevpg : Pgno
  nextpg : Pgno
  type : PageType
  preserve : Bool
  linp : List (Option Item)
  dead : Option Item
  bytes : Dbt
  deriving DecidableEq

namespace Page

def nextindex (h : Page) : Nat := h.linp.length

def used (h : Page) : Nat := (h.linp.map fun slot => slot.elim 0 Item.nbytes).sum

/-- `lower`: the end of the index. -/
def lower (h : Page) : Nat := btdataoff + indxSize * h.linp.length

/-- `upper`: the start of the items, an `indx_t`. On an empty page of the
largest size it wraps to zero. -/
def upper (h : Page) (psize : Nat) : Nat := (psize - h.used) % indxMod

/-- `h->upper - h->lower`, as the comparisons with unsigned sizes see it. Both
are zero on an overflow page. -/
def room (h : Page) (psize : Nat) : Nat :=
  if h.type = .overflow then 0 else (h.upper psize + u32Mod - h.lower) % u32Mod

/-- The item a slot designates. Past the end of the index only `linp[0]` of an
emptied leaf is known. -/
def slot (h : Page) (index : Nat) : Option Item :=
  match h.linp[index]? with
  | some item => item
  | none => if index = 0 then h.dead else none

/-- The page with slot `index` open for a new item. -/
def openSlot (h : Page) (index : Nat) : Page :=
  { h with linp := h.linp.insertIdx index none, dead := none }

def getBinternal (h : Page) (index : Nat) : Except Fault BInternal :=
  match h.slot index with
  | some (.bi item) => .ok item
  | _ => .error .garbage

def getBleaf (h : Page) (index : Nat) : Except Fault BLeaf :=
  match h.slot index with
  | some (.bl item) => .ok item
  | _ => .error .garbage

def getRinternal (h : Page) (index : Nat) : Except Fault RInternal :=
  match h.slot index with
  | some (.ri item) => .ok item
  | _ => .error .garbage

def getRleaf (h : Page) (index : Nat) : Except Fault RLeaf :=
  match h.slot index with
  | some (.rl item) => .ok item
  | _ => .error .garbage

def items (h : Page) : Except Fault (List Item) :=
  if h.linp.all Option.isSome then .ok h.linp.reduceOption else .error .garbage

end Page

/-- `EPGNO`: a page number and an index on that page. -/
structure Epgno where
  pgno : Pgno
  index : Nat
  deriving DecidableEq

/-- `CURSOR`, with the four `CURS_` flags spelled out. A saved key whose `data`
is `NULL` is empty. -/
structure Cursor where
  pg : Epgno
  key : Dbt
  rcursor : Nat
  acquire : Bool
  after : Bool
  before : Bool
  init : Bool
  deriving DecidableEq

/-- `bt_order`: whether the last inserts were sorted. -/
inductive SortOrder
  | not
  | back
  | forward
  deriving DecidableEq

/-- The part of `BTREE` that operations change. `stack` is `bt_stack` up to
`bt_sp`, the top first. -/
structure Btree where
  pages : List Page
  free : Pgno
  order : SortOrder
  last : Epgno
  cursor : Cursor
  stack : List Epgno
  nrecs : Nat
  modified : Bool
  metadirty : Bool
  deriving DecidableEq

/-- The part of `BTREE` that is fixed when the tree is opened. `maxpages` is the
number of pages the pool can hold before an allocation fails. -/
structure Config where
  psize : Nat
  ovflsize : Nat
  cmp : Dbt → Dbt → Int
  pfx : Option (Dbt → Dbt → Nat)
  nodups : Bool
  rdonly : Bool
  recno : Bool
  fixlen : Bool
  reclen : Nat
  bval : UInt8
  maxpages : Nat

/-- The number of entries of `bt_stack`. -/
def stackSize : Nat := 50

namespace Btree

def mpoolGet (t : Btree) (pg : Pgno) : Except Fault Page :=
  match t.pages[pg]? with
  | some h => .ok h
  | none => .error .nopage

/-- The page buffer of `pg` after stores through its pointer. -/
def setPage (t : Btree) (pg : Pgno) (h : Page) : Btree :=
  { t with pages := t.pages.set pg h }

def junkPage : Page :=
  { pgno := 0, prevpg := 0, nextpg := 0, type := .overflow, preserve := false,
    linp := [], dead := none, bytes := [] }

def mpoolNew (c : Config) (t : Btree) : Except Fault (Pgno × Btree) :=
  if t.pages.length < c.maxpages then
    .ok (t.pages.length, { t with pages := t.pages ++ [junkPage] })
  else .error .nospace

/-- `__bt_new`: a page from the free list, else a new one. -/
def btNew (c : Config) (t : Btree) : Except Fault (Pgno × Btree) :=
  if t.free ≠ pInvalid then
    match t.pages[t.free]? with
    | some h => .ok (t.free, { t with free := h.nextpg })
    | none => mpoolNew c t
  else mpoolNew c t

/-- `__bt_free`: put the page in buffer `pg` on the free list. -/
def btFree (t : Btree) (pg : Pgno) : Except Fault Btree := do
  let h ← t.mpoolGet pg
  .ok { t.setPage pg { h with prevpg := pInvalid, nextpg := t.free } with free := h.pgno }

/-- Change one link of page `pg`, if there is such a page. -/
def relinkSide (t : Btree) (pg : Pgno) (f : Page → Page) : Except Fault Btree :=
  if pg = pInvalid then .ok t
  else do
    let h ← t.mpoolGet pg
    .ok (t.setPage pg (f h))

end Btree

end Bsdi.Db
