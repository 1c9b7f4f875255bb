import Bsdi.Db.Btree.Search

/-!
# Deleting

`bt_delete.c`. Removing the last record of a leaf page removes the page, which
takes the entry out of the parent and may empty the parent in turn. The parents
are those on `bt_stack`.
-/

namespace Bsdi.Db

namespace Btree

variable (c : Config)

/-- `__bt_relink`: link around page `pg`. -/
def btRelink (t : Btree) (pg : Pgno) : Except Fault Btree := do
  let h ← t.mpoolGet pg
  let t ← relinkSide t h.nextpg fun e => { e with prevpg := h.prevpg }
  relinkSide t h.prevpg fun e => { e with nextpg := h.nextpg }

/-- `__ovfl_delete` of the chain of a big key. -/
def deleteBig (t : Btree) (big : Bool) (p : Dbt) : Except Fault Btree :=
  if big then ovflDelete c t p else .ok t

/-- The loop of `__bt_pdelete` over the parents on the stack. -/
def btPdeleteLoop : List Epgno → Btree → Except Fault Btree
  | [], t => .ok { t with stack := [] }
  | parent :: rest, t => do
    let pg ← t.mpoolGet parent.pgno
    let bi ← pg.getBinternal parent.index
    let t ← deleteBig c t bi.bigkey bi.key
    if pg.nextindex = 1 then
      if pg.pgno = pRoot then
        -- the root is never freed, it becomes an empty leaf page again
        .ok { t.setPage parent.pgno
                { pg with linp := [], dead := none, type := .bleaf, preserve := false } with
              stack := rest }
      else do
        let t ← btRelink t parent.pgno
        let t ← t.btFree parent.pgno
        btPdeleteLoop rest t
    else
      .ok { t.setPage parent.pgno { pg with linp := pg.linp.eraseIdx parent.index } with
            stack := rest }

/-- `__bt_pdelete`: delete the empty leaf page `pg` from the tree. -/
def btPdelete (t : Btree) (pg : Pgno) : Except Fault Btree := do
  let t ← btPdeleteLoop c t.stack t
  if pg = pRoot then .ok t
  else do
    let t ← btRelink t pg
    t.btFree pg

/-- The duplicate a cursor moves to when its record is deleted: the neighbours on
the page first, then the records next to it on the adjacent pages. The flag says
that the cursor stands before it. -/
def curdelDup (t : Btree) (key : Dbt) (h : Page) (pg index : Nat) :
    Except Fault (Option (Epgno × Bool)) := do
  let prev ← if 0 < index then btCmp c t key h (index - 1) else .ok 1
  if prev = 0 then .ok (some (⟨pg, index - 1⟩, false))
  else
    let next ← if index + 1 < h.nextindex then btCmp c t key h (index + 1) else .ok 1
    if next = 0 then .ok (some (⟨pg, index + 1⟩, true))
    else
      let left ← if index = 0 ∧ h.prevpg ≠ pInvalid then do
          let e ← t.mpoolGet h.prevpg
          let cmp ← btCmp c t key e (e.nextindex - 1)
          .ok (if cmp = 0 then some ⟨e.pgno, e.nextindex - 1⟩ else none)
        else .ok none
      match left with
      | some e => .ok (some (e, false))
      | none =>
        if index + 1 = h.nextindex ∧ h.nextpg ≠ pInvalid then do
          let e ← t.mpoolGet h.nextpg
          let cmp ← btCmp c t key e 0
          .ok (if cmp = 0 then some (⟨e.pgno, 0⟩, true) else none)
        else .ok none

/-- `__bt_curdel`: the cursor's record is deleted. The cursor moves to a
duplicate, else it keeps a copy of the key. -/
def btCurdel (t : Btree) (key : Option Dbt) (h : Page) (pg index : Nat) :
    Except Fault Btree := do
  let bl ← h.getBleaf index
  let cur := { t.cursor with after := false, before := false, acquire := false }
  if c.nodups then
    let own ← fullKey c t bl.key bl.bigkey
    .ok { t with cursor := { cur with key := own, acquire := true } }
  else
    let own ← fullKey c t bl.key bl.bigkey
    let saved := if key = none then { cur with key := own } else cur
    let dup ← curdelDup c t (key.getD own) h pg index
    match dup with
    | some (e, after) => .ok { t with cursor := { saved with pg := e, after := after, before := !after } }
    | none => .ok { t with cursor := { cur with key := own, acquire := true } }

/-- Whether the cursor is on page `pg`. -/
def cursorOn (t : Btree) (pg : Pgno) : Bool :=
  t.cursor.init && !t.cursor.acquire && t.cursor.pg.pgno == pg

def cursorDown (t : Btree) (pg index : Nat) : Btree :=
  if t.cursorOn pg ∧ index < t.cursor.pg.index then
    { t with cursor := { t.cursor with pg := ⟨pg, t.cursor.pg.index - 1⟩ } }
  else t

/-- `__bt_dleaf`: delete record `index` of leaf page `pg`. -/
def btDleaf (t : Btree) (key : Option Dbt) (pg index : Nat) : Except Fault Btree := do
  let h ← t.mpoolGet pg
  if h.nextindex ≤ index then .error .overrun
  else do
    let bl ← h.getBleaf index
    let t ← if t.cursorOn pg ∧ t.cursor.pg.index = index then btCurdel c t key h pg index
      else .ok t
    let t ← deleteBig c t bl.bigkey bl.key
    let t ← deleteBig c t bl.bigdata bl.data
    let linp := h.linp.eraseIdx index
    -- the last record stays readable through `linp[0]`
    let t := t.setPage pg
      { h with linp := linp, dead := if linp = [] then some (.bl bl) else none }
    .ok (t.cursorDown pg index)

/-- The first loop of `__bt_bdelete`, from the record that was found to the end of
the equal records on the page. -/
def bdeleteForward (key : Dbt) (pg index : Nat) : Nat → Btree → Except Fault Btree
  | 0, t => .ok t
  | fuel + 1, t => do
    let t ← btDleaf c t (some key) pg index
    let h ← t.mpoolGet pg
    if index < h.nextindex then do
      let cmp ← btCmp c t key h index
      if cmp = 0 then bdeleteForward key pg index fuel t else .ok t
    else .ok t

/-- The second loop of `__bt_bdelete`, from a record to the beginning of the page.
It also returns whether it got there. -/
def bdeleteBack (key : Dbt) (pg : Pgno) : Nat → Btree → Except Fault (Btree × Bool)
  | 0, t => .ok (t, false)
  | index + 1, t => do
    let h ← t.mpoolGet pg
    let cmp ← btCmp c t key h index
    if cmp ≠ 0 then .ok (t, false)
    else do
      let t ← btDleaf c t (some key) pg index
      if index = 0 then .ok (t, true) else bdeleteBack key pg index t

/-- The part of `__bt_bdelete` from its label `loop`. -/
def bdeleteLoop (key : Dbt) : Nat → Bool → Btree → Except Fault (Ret × Btree)
  | 0, _, _ => .error .garbage
  | fuel + 1, deleted, t => do
    let (t, e, exact) ← btSearch c t key
    if exact = false then .ok (if deleted then .success else .special, t)
    else if c.nodups then do
      let t ← btDleaf c t (some key) e.pgno e.index
      let h ← t.mpoolGet e.pgno
      let t ← if h.nextindex = 0 then btPdelete c t e.pgno else .ok t
      .ok (.success, t)
    else do
      let h ← t.mpoolGet e.pgno
      let t ← bdeleteForward c key e.pgno e.index h.nextindex t
      let h ← t.mpoolGet e.pgno
      let edge : Bool := e.index = h.nextindex
      let (t, start) ← bdeleteBack c key e.pgno e.index t
      let h ← t.mpoolGet e.pgno
      if h.nextindex = 0 then do
        let t ← btPdelete c t e.pgno
        bdeleteLoop key fuel true t
      else if edge || start then bdeleteLoop key fuel true t
      else .ok (.success, t)

/-- `__bt_bdelete`: delete the records that match the key. Every round but the
last deletes a record. -/
def btBdelete (t : Btree) (key : Dbt) : Except Fault (Ret × Btree) :=
  bdeleteLoop c key ((t.pages.map Page.nextindex).sum + 1) false t

/-- The entry next to `parent` on its own page. -/
def stkNeighbour (right : Bool) (h : Page) (parent : Epgno) : Option Nat :=
  if right then if parent.index + 1 ≠ h.nextindex then some (parent.index + 1) else none
  else if parent.index ≠ 0 then some (parent.index - 1) else none

/-- Move up the stack to the first page where the path can move to the next (or
the previous) entry, counting the levels. -/
def stkUp (t : Btree) (right : Bool) : Nat → List Epgno →
    Except Fault (Nat × Option (Page × Nat) × List Epgno)
  | level, [] => .ok (level, none, [])
  | level, parent :: rest => do
    let h ← t.mpoolGet parent.pgno
    match stkNeighbour right h parent with
    | some index => .ok (level, some (h, index), ⟨h.pgno, index⟩ :: rest)
    | none => stkUp t right (level + 1) rest

def stkDown (t : Btree) (right : Bool) : Nat → Page → Nat → List Epgno →
    Except Fault (List Epgno)
  | 0, _, _, stack => .ok stack
  | level + 1, h, index, stack => do
    let bi ← h.getBinternal index
    let e ← t.mpoolGet bi.pgno
    let edge := if right then 0 else e.nextindex - 1
    stkDown t right level e edge (⟨bi.pgno, edge⟩ :: stack)

def stkStep (t : Btree) (right : Bool) : Except Fault Btree := do
  let (level, top, stack) ← stkUp t right 0 t.stack
  match top with
  | some (h, index) => do
    let stack ← stkDown t right level h index stack
    .ok { t with stack := stack }
  | none => if level = 0 then .ok { t with stack := stack } else .error .garbage

/-- The loops of `__bt_stkacq` that look for page `pg` from leaf page `from_`. -/
def stkWalk (right : Bool) (pg : Pgno) : Nat → Btree → Pgno → Except Fault (Btree × Pgno)
  | 0, _, _ => .error .garbage
  | fuel + 1, t, from_ => do
    let h ← t.mpoolGet from_
    let next := if right then h.nextpg else h.prevpg
    if h.pgno = pg ∨ next = pInvalid then .ok (t, h.pgno)
    else do
      let t ← stkStep t right
      stkWalk right pg fuel t next

/-- `__bt_stkacq`: acquire the stack of the page the cursor is on. -/
def btStkacq (t : Btree) : Except Fault Btree := do
  let (t, e, _) ← btSearch c t t.cursor.key
  let (t, pg) ← stkWalk true t.cursor.pg.pgno (t.pages.length + 1) t e.pgno
  if pg = t.cursor.pg.pgno then .ok t
  else do
    let (t, e, _) ← btSearch c t t.cursor.key
    let (t, _) ← stkWalk false t.cursor.pg.pgno (t.pages.length + 1) t e.pgno
    .ok t

/-- The `R_CURSOR` branch of `__bt_delete`. -/
def deleteCursor (t : Btree) : Except Fault (Ret × Btree) :=
  if t.cursor.init = false then .ok (.error, t)
  else if t.cursor.acquire || t.cursor.after || t.cursor.before then .ok (.special, t)
  else do
    let pg := t.cursor.pg.pgno
    let h ← t.mpoolGet pg
    let t ← if h.nextindex = 1 then btStkacq c t else .ok t
    let t ← btDleaf c t none pg t.cursor.pg.index
    let h ← t.mpoolGet pg
    let t ← if h.nextindex = 0 then btPdelete c t pg else .ok t
    .ok (.success, { t with modified := true })

def btDelete (t : Btree) (key : Dbt) (flags : Flag) : Except Fault (Ret × Btree) :=
  if c.rdonly then .ok (.error, t)
  else
    match flags with
    | .none => do
      let (r, t) ← btBdelete c t key
      .ok (r, if r = .success then { t with modified := true } else t)
    | .cursor => deleteCursor c t
    | _ => .ok (.error, t)

end Btree

end Bsdi.Db
