import Bsdi.Lib.UndoLog

/-!
# The commands of the editor

The buffer of `ed` is a doubly linked list of lines. The commands that change it, from the point
where their addresses are known and the text is read, and `undo`. A line is known by the number of
its allocation; following a null pointer has no result. The undo stack keeps the links of lines and
the marks.
-/

namespace Bsdi.Ed

open Bsdi.Lib

abbrev Line := Nat

/-- What `u_add_stk` can be given the address of. -/
inductive Cell
  | above (l : Line)
  | below (l : Line)
  | mark (i : Fin 26)
  deriving DecidableEq

structure Editor where
  mem : Cell → Option Line
  handle : Line → Nat
  top : Option Line
  bottom : Option Line
  current : Option Line
  uTop : Option Line
  uBottom : Option Line
  uCurrent : Option Line
  uStk : List (Cell × Option Line)
  dStk : List (Line × Line)
  oldDStk : List (Line × Line)
  /-- How many lines were allocated. -/
  fresh : Nat
  /-- The lines that `d_do` freed. -/
  freed : List Line

namespace Editor

def put (c : Cell) (v : Option Line) (e : Editor) : Editor :=
    { e with mem := Function.update e.mem c v }

def uAddStk (c : Cell) (e : Editor) : Editor := { e with uStk := (c, e.mem c) :: e.uStk }

/-- `u_add_stk` and the store that follows it. -/
def store (c : Cell) (v : Option Line) (e : Editor) : Editor := (e.uAddStk c).put c v

@[simp]
theorem put_mem {e : Editor} {c d : Cell} {v : Option Line} :
    (e.put c v).mem d = if d = c then v else e.mem d :=
  Function.update_apply _ _ _ _

@[simp]
theorem uAddStk_mem {e : Editor} {c : Cell} : (e.uAddStk c).mem = e.mem := rfl

@[simp]
theorem store_mem {e : Editor} {c d : Cell} {v : Option Line} :
    (e.store c v).mem d = if d = c then v else e.mem d :=
  Function.update_apply _ _ _ _

def uPopNSwap (c : Cell) (e : Editor) : Option Editor :=
  match e.uStk with
  | [] => none
  | (d, v) :: stk =>
    let e := e.put d v
    some { e with uStk := (c, e.mem c) :: stk }

/-- The lines from one to another by `below`, of which there are at most `n`. -/
def walk (mem : Cell → Option Line) : Nat → (l fini : Line) → List Line
  | 0, _, _ => []
  | n + 1, l, fini =>
    if l = fini then [l]
    else
      match mem (.below l) with
      | none => [l]
      | some next => l :: walk mem n next fini

/-- A line in `ku_chk`: the marks that are set to it. -/
def kuLine (val : Option Line) (e : Editor) (l : Line) : Editor :=
  (List.finRange 26).foldl (fun e i => if e.mem (.mark i) = some l then e.store
    (.mark i) val else e) e

def kuChk (begi fini : Line) (val : Option Line) (e : Editor) : Editor :=
  (walk e.mem e.fresh begi fini).foldl (kuLine val) e

def newLine (handle : Nat) (above below : Option Line) (e : Editor) : Editor :=
  { e with
    mem := Function.update (Function.update e.mem (.above e.fresh) above) (.below e.fresh) below
    handle := Function.update e.handle e.fresh handle
    fresh := e.fresh + 1 }

def dDo (e : Editor) : Editor :=
  { e with
    freed := (e.dStk.flatMap fun r => walk e.mem e.fresh r.1 r.2) ++ e.freed
    dStk := [] }

def uClrStk (e : Editor) : Editor :=
  let e := { e with uCurrent := e.current, uTop := e.top, uBottom := e.bottom }
  let e := if e.uStk ≠ [] ∧ e.dStk ≠ [] then e.dDo else e
  { e with uStk := [], oldDStk := [] }

def undo (e : Editor) : Editor :=
  let r := rewind e.mem e.uStk []
  { e with
    mem := r.1
    uStk := r.2
    current := e.uCurrent
    top := e.uTop
    bottom := e.uBottom
    uCurrent := e.current
    uTop := e.top
    uBottom := e.bottom
    dStk := e.oldDStk
    oldDStk := e.dStk }

/-- The loop of `input_lines`: the last line and the buffer. -/
def inputLoop : List Nat → Option Line → Editor → Option Line × Editor
  | [], last, e => (last, e)
  | h :: hs, last, e =>
    let l := e.fresh
    let e := e.newLine h last none
    let e := match last with
      | some p => e.put (.below p) (some l)
      | none => { e with top := some l }
    inputLoop hs (some l) e

/-- The start of `input_lines`: the line behind the new ones, and the buffer. -/
def inputStart (start : Option Line) (e : Editor) : Option Line × Editor :=
  match start with
  -- Without a top, the address given to `u_add_stk` is null and nothing happens.
  | none => (e.top, match e.top with
    | none => e
    | some t => e.uAddStk (.above t))
  | some s => (e.mem (.below s), e.uAddStk (.below s))

/-- The end of `input_lines`, with the line behind the new ones and the last of these. -/
def inputEnd (next last : Option Line) (e : Editor) : Editor :=
  let e := { e with current := if last = none then e.top else last }
  match next, last with
  | none, _ => { e with bottom := last }
  | some _, none => e
  | some n, some l => (e.put (.below l) (some n)).store (.above n) (some l)

/-- `input_lines`, of lines with the given handles behind the line `start`. -/
def inputLines (start : Option Line) (hs : List Nat) (e : Editor) : Editor :=
  let (next, e) := e.inputStart start
  let (last, e) := e.inputLoop hs start
  e.inputEnd next last

def a (start : Option Line) (hs : List Nat) (e : Editor) : Editor := e.uClrStk.inputLines start hs

/-- `i` before a line. -/
def i (line : Line) (hs : List Nat) (e : Editor) : Editor := e.a (e.mem (.above line)) hs

/-- The part of `d` after `u_clr_stk`. -/
def delete (start fini : Line) (e : Editor) : Option Editor := do
  let e := { e with dStk := (start, fini) :: e.dStk }
  let e ← if e.top = some start then
      let e := { e with top := e.mem (.below fini) }
      match e.top with
      | none => some e
      | some t => some (e.store (.above t) none)
    else do
      let l ← e.mem (.above start)
      some (e.store (.below l) (e.mem (.below fini)))
  let e ← if e.bottom = some fini then
      some { e with bottom := e.mem (.above start), current := e.mem (.above start) }
    else do
      let l ← e.mem (.below fini)
      some { e.store (.above l) (e.mem (.above start)) with current := some l }
  return e.kuChk start fini none

def d (start fini : Line) (e : Editor) : Option Editor := e.uClrStk.delete start fini

def c (start fini : Line) (hs : List Nat) (e : Editor) : Option Editor := do
  let last := e.bottom = some fini
  let e ← e.d start fini
  let cur := e.current.bind fun l => if last then some l else e.mem (.above l)
  return inputLines cur hs { e with current := cur }

/-- The line that `j` makes, behind the line before `start`. -/
def joined (start : Line) (h : Nat) (e : Editor) : Option Editor :=
  let l := e.fresh
  if e.top = some start then some { e.newLine h none none with top := some l }
  else do
    let p ← e.mem (.above start)
    return (e.newLine h (some p) none).store (.below p) (some l)

def j (start fini : Line) (h : Nat) (e : Editor) : Option Editor := do
  let e := e.uClrStk
  let l := e.fresh
  let e ← e.joined start h
  let e := (e.put (.below l) (some start)).store (.above start) (some l)
  let e ← e.delete start fini
  return { e with current := some l }

/-- `m` takes the lines out of the buffer. -/
def moveOut (start fini : Line) (e : Editor) : Option Editor :=
  if e.top = some start then do
    let n ← e.mem (.below fini)
    return { e.store (.above n) none with top := some n }
  else if e.bottom = some fini then do
    let p ← e.mem (.above start)
    return { e.store (.below p) none with bottom := some p }
  else do
    let p ← e.mem (.above start)
    let n ← e.mem (.below fini)
    return (e.store (.below p) (some n)).store (.above n) (some p)

/-- `m` puts the lines behind `dest`, or before the first one. -/
def moveIn (start fini : Line) (dest oldTop oldBottom : Option Line) (e : Editor) : Option Editor :=
  match dest with
  | none => do
    let t ← oldTop
    let e := (e.store (.above start) none).store (.below fini) (some t)
    return { e.store (.above t) (some fini) with top := some start }
  | some dest => do
    let e ← if oldBottom = some dest then
        let e := (e.store (.below fini) none).store (.above start) (some dest)
        some { e.store (.below dest) (some start) with bottom := some fini }
      else do
        let e := e.store (.above start) (some dest)
        let n ← e.mem (.below dest)
        let e := (e.store (.below fini) (some n)).store (.above n) (some fini)
        some (e.store (.below dest) (some start))
    return e.put (.below dest) (some start)

def m (start fini : Line) (dest : Option Line) (e : Editor) : Option Editor :=
  let e := e.uClrStk
  if some start = dest ∨ some fini = dest then some e
  else if e.top = some start ∧ e.bottom = some fini then some e
  else if e.top = some start ∧ dest = none then some e
  else do
    let oldTop := e.top
    let oldBottom := e.bottom
    let e ← e.moveOut start fini
    let e ← e.moveIn start fini dest oldTop oldBottom
    return { e with current := some start }

/-- The loop of `t`: the first and the last of the copies. -/
def copyLoop : List Nat → Option (Line × Line) → Editor → Option (Line × Line) × Editor
  | [], copied, e => (copied, e)
  | h :: hs, none, e => copyLoop hs (some (e.fresh, e.fresh)) (e.newLine h none none)
  | h :: hs, some (tb, te), e =>
    copyLoop hs (some (tb, e.fresh)) ((e.newLine h (some te) none).put (.below te) (some e.fresh))

/-- `t` links the first copy to the line before it: the line behind the copies and the buffer. -/
def copyFirst (dest : Option Line) (tb : Line) (e : Editor) : Option (Option Line × Editor) :=
  match dest with
  | none => do
    let top ← e.top
    let e := e.store (.above top) (some tb)
    return (some top, { e with top := some tb }.put (.above tb) none)
  | some dest =>
    let e := e.uAddStk (.below dest)
    some (e.mem (.below dest), (e.put (.above tb) (some dest)).put (.below dest) (some tb))

/-- `t` links the last copy to the line behind it. -/
def copyLast (dest next : Option Line) (te : Line) (e : Editor) : Option Editor :=
  if e.bottom = dest then some { e.put (.below te) none with bottom := some te }
  else do
    let n ← next
    return (e.put (.below te) (some n)).store (.above n) (some te)

/-- `t` behind the line `dest`; `add` gives the handle of a copy. -/
def t (add : Nat → Nat) (start fini : Line) (dest : Option Line) (e : Editor) : Option Editor := do
  let e := e.uClrStk
  let hs := (walk e.mem e.fresh start fini).map fun l => add (e.handle l)
  let (copied, e) := copyLoop hs none e
  let (tb, te) ← copied
  let (next, e) ← e.copyFirst dest tb
  let e ← e.copyLast dest next te
  return { e with current := some te }

/-- The loop of `s` over the pieces of a new line: the last piece, `l_u_reuse_flag` and the buffer. -/
def pieceLoop (cur : Line) : List Nat → Option Line → Bool → Editor → Option Line × Bool × Editor
  | [], last, reuse, e => (last, reuse, e)
  | h :: hs, last, reuse, e =>
    let l := e.fresh
    let e := e.newLine h last none
    match last with
    | none => pieceLoop cur hs (some l) reuse { e with top := some l }
    | some p =>
      if e.uStk.head?.map Prod.fst = some (.above cur) then
        pieceLoop cur hs (some l) true (e.put (.below p) (some l))
      else pieceLoop cur hs (some l) false ((e.uAddStk (.below p)).put (.below p) (some l))

/-- The link to the line above `n` is logged, by the entry on top of the stack or by a new one. -/
def logAbove (reuse : Bool) (n : Line) (e : Editor) : Option Editor :=
  if reuse then e.uPopNSwap (.above n) else some (e.uAddStk (.above n))

/-- The line `cur` is replaced by the pieces with the given handles: the last piece, the flag and the
buffer. -/
def replaceLine (cur : Line) (hs : List Nat) (reuse : Bool) (e : Editor) :
    Option (Line × Bool × Editor) := do
  let above := e.mem (.above cur)
  let below := e.mem (.below cur)
  let (last, reuse, e) := pieceLoop cur hs above reuse e
  let l ← last
  let e := e.put (.below l) below
  let e := e.kuChk cur cur (e.mem (.below cur))
  match below with
  | none => some (l, reuse, { e with bottom := some l })
  | some n => do
    let e ← e.logAbove reuse n
    return (l, reuse, e.put (.above n) (some l))

/-- One line of the range of `s`; `subst` gives the handles of the pieces of a line in which there is a
match. The line to go on behind, `End`, the flag, the last line that was replaced and the buffer. -/
def substLine (subst : Line → Option (List Nat)) (cur fini : Line) (reuse : Bool)
    (last : Option Line)
    (e : Editor) : Option (Line × Line × Bool × Option Line × Editor) :=
  match subst cur with
  | none => some (cur, fini, reuse, last, e)
  | some hs => do
    let (l, reuse, e) ← e.replaceLine cur hs reuse
    return (l, if cur = fini then l else fini, reuse, some l, e)

/-- The loop of `s` over the lines, for at most so many: the last line that was replaced. -/
def substLoop (subst : Line → Option (List Nat)) :
    Nat → (cur fini : Line) → Bool → Option Line → Editor → Option (Option Line × Editor)
  | 0, _, _, _, _, _ => none
  | k + 1, cur, fini, reuse, last, e => do
    let (l, fini, reuse, last, e) ← e.substLine subst cur fini reuse last
    if e.mem (.below l) = e.mem (.below fini) then return (last, e)
    let next ← e.mem (.below l)
    substLoop subst k next fini reuse last e

/-- `s`, for a range in which there is a match. -/
def s (subst : Line → Option (List Nat)) (start fini : Line) (e : Editor) : Option Editor := do
  let e := e.uClrStk
  let (last, e) ← substLoop subst e.fresh start fini false none e
  return { e with current := last }

end Editor

end Bsdi.Ed
