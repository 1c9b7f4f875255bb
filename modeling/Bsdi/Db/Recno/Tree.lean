import Bsdi.Db.Btree.Page

/-!
# Record number trees

The tree of pages behind a recno database, and `__rec_search`, `__rec_delete` and `__rec_seq`. The
slots of an internal page count the records below them.
-/

namespace Bsdi.Db.Recno

/-- An `RLEAF`: a record. With `P_BIGDATA` its bytes name overflow pages. -/
structure Rleaf where
  bytes : Dbt
  bigData : Bool
  deriving DecidableEq

/-- The pages, by their height: a leaf is the list of its records, an internal page the list of its
`RINTERNAL`s, each one a count and the page below. -/
abbrev Page : ℕ → Type
  | 0 => List Rleaf
  | h + 1 => List (ℕ × Page h)

def getRinternal {h : ℕ} (slots : List (ℕ × Page h)) (index : ℕ) : Option (ℕ × Page h) :=
  slots[index]?

def recs : (h : ℕ) → Page h → List Rleaf
  | 0, items => items
  | h + 1, slots => List.flatMap (fun r : ℕ × Page h => recs h r.2) slots

def maxRecNumber : ℕ := 2 ^ 32 - 1

/-- `++n`. -/
def incr (n : ℕ) : ℕ := (n + 1) % 2 ^ 32

/-- `--n`. -/
def decr (n : ℕ) : ℕ := (n + maxRecNumber) % 2 ^ 32

/-- The loop over the slots of a page: the slot to go down, and `total`. -/
def findSlot {α : Type*} (recno : ℕ) : List (ℕ × α) → ℕ → ℕ × ℕ
  | [], total => (0, total)
  | [_], total => (0, total)
  | r :: rest, total =>
    if recno < (total + r.1) % 2 ^ 32 then (0, total)
    else
      let (index, total) := findSlot recno rest ((total + r.1) % 2 ^ 32)
      (index + 1, total)

/-- The way down: what is pushed on the stack, and `bt_cur.index`, an `indx_t`. -/
def descend (recno : ℕ) : (h : ℕ) → Page h → ℕ → List ℕ × ℕ
  | 0, _, total => ([], (recno + 2 ^ 32 - total) % 2 ^ 32 % 2 ^ 16)
  | h + 1, slots, total =>
    let (index, total) := findSlot recno slots total
    match getRinternal slots index with
    | none => ([], 0)
    | some r =>
      let (path, i) := descend recno h r.2 total
      (index :: path, i)

def recount (f : ℕ → ℕ) : (h : ℕ) → Page h → List ℕ → Page h
  | 0, items, _ => items
  | _ + 1, slots, [] => slots
  | h + 1, slots, i :: path =>
    List.modify slots i fun r : ℕ × Page h => (f r.1, recount f h r.2 path)

def leafAt : (h : ℕ) → Page h → List ℕ → List Rleaf
  | 0, items, _ => items
  | _ + 1, _, [] => []
  | h + 1, slots, i :: path =>
    match getRinternal slots i with
    | none => []
    | some r => leafAt h r.2 path

def setLeaf (items : List Rleaf) : (h : ℕ) → Page h → List ℕ → Page h
  | 0, _, _ => items
  | _ + 1, slots, [] => slots
  | h + 1, slots, i :: path =>
    List.modify slots i fun r : ℕ × Page h => (r.1, setLeaf items h r.2 path)

/-- The search operations, `SEARCH`, `SDELETE` and `SINSERT`. -/
inductive Srchop
  | search
  | sdelete
  | sinsert

def Srchop.count : Srchop → ℕ → ℕ
  | search => id
  | sdelete => decr
  | sinsert => incr

/-- What the pages answer: `fault` is given when `mpool_get` fails on the way down, with the number
of pages on the way whose counts are not restored because it fails again; `freed` says that
`__ovfl_delete` succeeds. -/
structure Answers where
  fault : Option ℕ
  freed : Bool

/-- `__rec_search`; `none` is `NULL`. -/
def recSearch (op : Srchop) (recno : ℕ) (fault : Option ℕ) (h : ℕ) (root : Page h) :
    Option (List ℕ × ℕ) × Page h :=
  let (path, index) := descend recno h root 0
  match fault with
  | none => (some (path, index), recount op.count h root path)
  | some lost => (none, recount op.count h root (path.take lost))

structure Tree where
  height : ℕ
  root : Page height
  /-- `bt_nrecs`. -/
  nrecs : ℕ
  /-- `R_EOF` or `R_INMEM`. -/
  eof : Bool
  /-- `CURS_INIT`. -/
  init : Bool
  /-- `bt_cursor.rcursor`. -/
  rcursor : ℕ

def Tree.recs (t : Tree) : List Rleaf := Recno.recs t.height t.root

/-- `__rec_dleaf`; `none` when there is no such index on the page. -/
def recDleaf (freed : Bool) (items : List Rleaf) (index : ℕ) : Option (Ret × List Rleaf) :=
  match items[index]? with
  | none => none
  | some rl =>
    if rl.bigData ∧ ¬freed then some (.error, items) else some (.success, items.eraseIdx index)

/-- `rec_rdelete`; `none` when `__rec_dleaf` is called without such an index on the page. -/
def recRdelete (answers : Answers) (nrec : ℕ) (t : Tree) : Option (Ret × Tree) :=
  match recSearch .sdelete nrec answers.fault t.height t.root with
  | (none, root) => some (.error, { t with root := root })
  | (some (path, index), root) =>
    match recDleaf answers.freed (leafAt t.height root path) index with
    | none => none
    | some (.success, items) =>
      some (.success, { t with
        root := setLeaf items t.height root path
        nrecs := decr t.nrecs })
    | some (status, _) => some (status, { t with root := root })

def recDelete (answers : Answers) (flags : Flag) (key : ℕ) (t : Tree) : Option (Ret × Tree) :=
  match flags with
  | .none =>
    if key = 0 then some (.error, t)
    else if t.nrecs < key then some (.special, t)
    else recRdelete answers (key - 1) t
  | .cursor =>
    if ¬t.init then some (.error, t)
    else if t.nrecs = 0 then some (.special, t)
    else
      match recRdelete answers (decr t.rcursor) t with
      | some (.success, t) => some (.success, { t with rcursor := decr t.rcursor })
      | other => other
  | _ => some (.error, t)

/-- What `__rec_seq` meets: whether `__rec_search` finds its pages, and whether `__rec_ret`
succeeds. -/
structure Found where
  pages : Bool
  ret : Bool

section

-- `bt_irec`, the function that reads records of the user's file up to a number
variable (irec : Tree → ℕ → Ret × Tree)

/-- The end of `__rec_seq`: the record that is returned, the status and the tree. -/
def seqReturn (found : Found) (nrec : ℕ) (t : Tree) : Option Rleaf × Ret × Tree :=
  if ¬found.pages then (none, .error, t)
  else
    let (path, index) := descend (decr nrec) t.height t.root 0
    let rl := (leafAt t.height t.root path)[index]?
    (rl, if found.ret then .success else .error, { t with init := true, rcursor := nrec })

/-- `__rec_seq` after its switch, for record `nrec`. -/
def seqRecord (found : Found) (nrec : ℕ) (t : Tree) : Option Rleaf × Ret × Tree :=
  if t.nrecs = 0 ∨ t.nrecs < nrec then
    let (status, t) := if t.eof then (.success, t) else irec t nrec
    if status ≠ .success then (none, status, t)
    else if t.nrecs = 0 ∨ t.nrecs < nrec then (none, .special, t)
    else seqReturn found nrec t
  else seqReturn found nrec t

/-- `R_LAST`. -/
def seqLast (found : Found) (t : Tree) : Option Rleaf × Ret × Tree :=
  let (status, t) := if t.eof then (.success, t) else irec t maxRecNumber
  if status = .error then (none, .error, t) else seqRecord irec found t.nrecs t

def recSeq (found : Found) (flags : Flag) (key : ℕ) (t : Tree) : Option Rleaf × Ret × Tree :=
  match flags with
  | .cursor => if key = 0 then (none, .error, t) else seqRecord irec found key t
  | .next => seqRecord irec found (if t.init then incr t.rcursor else 1) t
  | .first => seqRecord irec found 1 t
  | .prev =>
    if t.init then
      if decr t.rcursor = 0 then (none, .special, t) else seqRecord irec found (decr t.rcursor) t
    else seqLast irec found t
  | .last => seqLast irec found t
  | _ => (none, .error, t)

end

end Bsdi.Db.Recno
