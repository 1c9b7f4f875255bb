import Bsdi.Db.Btree.Search

/-!
# Sequential scans

`bt_seq.c`. The cursor is set to the first or the last record of the tree or to that of a key,
and moves along the leaf pages. A cursor whose record was deleted is only a saved key, and
`__bt_first` finds where that key would go.
-/

namespace Bsdi.Db

namespace Btree

variable (c : Config)

/-- The walk of `__bt_first` back over duplicates of the key: the last position whose record
has it. -/
def firstBack (t : Btree) (key : Dbt) : Nat → Page → Nat → Except Fault Epgno
  | 0, h, index => .ok ⟨h.pgno, index⟩
  | fuel + 1, h, index =>
    if index = 0 ∧ h.prevpg = pInvalid then .ok ⟨h.pgno, index⟩
    else do
      let (h', index') ←
        if index = 0 then do
          let h' ← t.mpoolGet h.prevpg
          .ok (h', h'.nextindex - 1)
        else .ok (h, index - 1)
      let cmp ← btCmp c t key h' index'
      if cmp = 0 then firstBack t key fuel h' index' else .ok ⟨h.pgno, index⟩

/-- `__bt_first`: the first record from the key on, if there is one. -/
def btFirst (t : Btree) (key : Dbt) : Except Fault (Ret × Option Epgno × Btree) := do
  let (t, e, exact) ← btSearch c t key
  if exact then
    if c.nodups then .ok (.success, some e, t)
    else do
      let h ← t.mpoolGet e.pgno
      let e ← firstBack c t key ((t.pages.map Page.nextindex).sum + 1) h e.index
      .ok (.success, some e, t)
  else do
    let h ← t.mpoolGet e.pgno
    -- at the end of a page, the next entry is on the next one
    if e.index = h.nextindex then
      if h.nextpg = pInvalid then .ok (.special, none, t)
      else do
        let h' ← t.mpoolGet h.nextpg
        .ok (.success, some ⟨h'.pgno, 0⟩, t)
    else .ok (.success, some e, t)

def seqEdge (t : Btree) (right : Bool) : Nat → Pgno → Except Fault (Option Epgno)
  | 0, _ => .error .nopage
  | fuel + 1, pg => do
    let h ← t.mpoolGet pg
    if h.nextindex = 0 then .ok none
    else
      let index := if right then h.nextindex - 1 else 0
      if h.type = .bleaf ∨ h.type = .rleaf then .ok (some ⟨h.pgno, index⟩)
      else do
        let bi ← h.getBinternal index
        seqEdge t right fuel bi.pgno

/-- `__bt_seqset`: set the scan to the first, the last or a specific record. -/
def btSeqset (t : Btree) (key : Dbt) (flags : Flag) : Except Fault (Ret × Option Epgno × Btree) :=
  if flags = .cursor then
    if key = [] then .ok (.error, none, t) else btFirst c t key
  else do
    let right : Bool := decide (flags = .last ∨ flags = .prev)
    let e ← seqEdge t right (t.pages.length + 1) pRoot
    .ok (if e.isSome then .success else .special, e, t)

/-- `__bt_seqadv`: advance the scan. -/
def btSeqadv (t : Btree) (flags : Flag) : Except Fault (Ret × Option Epgno × Btree) :=
  if t.cursor.acquire then btFirst c t t.cursor.key
  else do
    let h ← t.mpoolGet t.cursor.pg.pgno
    if flags = .next then
      -- the cursor is on a record that has yet to be returned
      if t.cursor.after then
        .ok (.success, some ⟨h.pgno, t.cursor.pg.index⟩,
          { t with cursor := { t.cursor with after := false, before := false } })
      else if t.cursor.pg.index + 1 = h.nextindex then
        if h.nextpg = pInvalid then .ok (.special, none, t)
        else do
          let h' ← t.mpoolGet h.nextpg
          .ok (.success, some ⟨h'.pgno, 0⟩, t)
      else .ok (.success, some ⟨h.pgno, t.cursor.pg.index + 1⟩, t)
    else
      if t.cursor.before then
        .ok (.success, some ⟨h.pgno, t.cursor.pg.index⟩,
          { t with cursor := { t.cursor with after := false, before := false } })
      else if t.cursor.pg.index = 0 then
        if h.prevpg = pInvalid then .ok (.special, none, t)
        else do
          let h' ← t.mpoolGet h.prevpg
          .ok (.success, some ⟨h'.pgno, h'.nextindex - 1⟩, t)
      else .ok (.success, some ⟨h.pgno, t.cursor.pg.index - 1⟩, t)

def btSetcur (t : Btree) (e : Epgno) : Btree :=
  { t with
    cursor := { t.cursor with
      pg := e, key := [], acquire := false, after := false, before := false, init := true } }

/-- `__bt_ret` of the record at a position. -/
def btRet (t : Btree) (e : Epgno) : Except Fault (Dbt × Dbt) := do
  let h ← t.mpoolGet e.pgno
  let bl ← h.getBleaf e.index
  let key ← fullKey c t bl.key bl.bigkey
  let data ← btRetData c t bl
  .ok (key, data)

/-- `__bt_seq`: the return value and the pair that is returned. -/
def btSeq (t : Btree) (key : Dbt) (flags : Flag) :
    Except Fault (Ret × Option (Dbt × Dbt) × Btree) :=
  if flags = .next ∨ flags = .prev ∨ flags = .first ∨ flags = .last ∨ flags = .cursor then do
    let (r, e, t) ← if (flags = .next ∨ flags = .prev) ∧ t.cursor.init then btSeqadv c t flags
      else btSeqset c t key flags
    match e with
    | none => .ok (r, none, t)
    | some e => do
      let t := t.btSetcur e
      let pair ← btRet c t e
      .ok (.success, some pair, t)
  else .ok (.error, none, t)

end Btree

end Bsdi.Db
