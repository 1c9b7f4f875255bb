import Bsdi.Lib.Memory

/-!
# The code tree of `compact`

`tree.c`: the tree of an adaptive Huffman code. Nodes, characters and index cells are known by
their places in `dict`, `in` and `dir`; a null pointer is `none`, and following one has no
result. The union `treep` is one number, a node or a character as the flags say. The loops have a
bound on their turns.
-/

namespace Bsdi.Compact

def lleaf : Nat := 8

def rleaf : Nat := 4

def seen : Nat := 2

def fbit : Nat := 1

/-- `EF`, the end of the file. -/
def ef : Nat := 256

/-- `NC`, a new character. -/
def nc : Nat := 257

def nf : Nat := 258

structure Fpoint where
  fp : Option Nat
  flags : Nat

structure Index where
  pt : Nat
  next : Option Nat

structure Son where
  sp : Nat
  top : Option Nat
  count : Int32

structure Node where
  fath : Fpoint
  /-- `sons[LEFT]`. -/
  left : Son
  /-- `sons[RIGHT]`. -/
  right : Son

structure Tree where
  inp : Nat → Fpoint
  dir : Nat → Index
  dict : Nat → Node
  head : Nat
  flist : Option Nat
  dirp : Nat
  dirq : Option Nat
  bottom : Nat

namespace Tree

variable (t : Tree)

/-- `dict[r].sons[rs]`. -/
def son (r : Nat) (rs : Bool) : Son := if rs then (t.dict r).right else (t.dict r).left

def setNode (r : Nat) (n : Node) : Tree := { t with dict := Function.update t.dict r n }

def setSon (r : Nat) (rs : Bool) (s : Son) : Tree :=
  t.setNode r (if rs then { t.dict r with right := s } else { t.dict r with left := s })

def setFath (r : Nat) (f : Fpoint) : Tree := t.setNode r { t.dict r with fath := f }

def setIn (ch : Nat) (f : Fpoint) : Tree := { t with inp := Function.update t.inp ch f }

def setDir (i : Nat) (x : Index) : Tree := { t with dir := Function.update t.dir i x }

/-- `NEW`: the first cell of `flist`. -/
def new : Option (Nat × Tree) := do
  let i ← t.flist
  pure (i, { t with flist := (t.dir i).next })

end Tree

/-- `RLEAF` or `LLEAF`. -/
def leafFlag (rs : Bool) : Nat := if rs then rleaf else lleaf

/-- The flags with `FBIT` set to `ws`. -/
def withFbit (flags : Nat) (ws : Bool) : Nat := flags / 2 * 2 + ws.toNat

def insert (t : Tree) (ch : Nat) : Option Tree := do
  let (wt, t) ← t.new
  let pp := t.bottom
  let bottom := pp + 1
  let t := { t with bottom := bottom }
  let pson := (t.dict pp).right
  let d := pson.sp
  let t := t.setFath bottom ⟨some pp, lleaf ||| rleaf ||| fbit⟩
  let t := t.setIn ch ⟨some bottom, seen ||| fbit⟩
  let t := t.setIn d ⟨some bottom, seen⟩
  let ptop ← pson.top
  let t := t.setSon bottom false ⟨d, some ptop, pson.count⟩
  let t := t.setSon bottom true ⟨ch, some wt, 0⟩
  let t := t.setSon pp true { pson with sp := bottom }
  let f := (t.dict pp).fath
  let t := t.setFath pp ⟨f.fp, f.flags - (f.flags &&& rleaf)⟩
  let t := t.setDir wt ⟨bottom, none⟩
  pure (t.setDir ptop { t.dir ptop with next := some wt })

def exch (t : Tree) (v : Nat) (vs : Bool) (x w : Nat) (ws : Bool) : Tree :=
  if (t.dict v).fath.flags &&& leafFlag vs ≠ 0 then
    t.setIn x ⟨some w, withFbit (t.inp x).flags ws⟩
  else t.setFath x ⟨some w, withFbit (t.dict x).fath.flags ws⟩

/-- Where the inner loop of `uptree` stops: `r`, `rs`, `s.p`, `sc`, `st`, `qc` and `qt`. -/
structure Stop where
  r : Nat
  rs : Bool
  s : Nat
  sc : Int32
  st : Option Nat
  qc : Int32
  qt : Nat

/-- The inner loop of `uptree`: the son `rs` of `r`, of count `rc`, is exchanged with the first
son of a smaller count. -/
def uptreeInner (rc : Int32) : Nat → Tree → Nat → Bool → Option (Tree × Stop)
  | 0, _, _, _ => none
  | fuel + 1, t, r, rs =>
    if ¬ rs ∧ r = 0 then
      let son := (t.dict r).right
      some (t, ⟨r, rs, r, son.count, son.top, rc + 1, t.head⟩)
    else do
      let next := (t.dict (r + 1)).left
      let (s, sc, st) := if rs then
          (r + 1, if r = t.bottom then rc - 2 else next.count,
            if r = t.bottom then none else next.top)
        else (r, (t.dict r).right.count, (t.dict r).right.top)
      let q := if rs then (t.dict r).left else (t.dict (r - 1)).right
      let qt ← q.top
      if rc ≤ q.count then some (t, ⟨r, rs, s, sc, st, q.count, qt⟩)
      else
        let v := (t.dir qt).pt
        let vs : Bool := rc ≤ (t.dict v).left.count
        let tson := t.son v vs
        let rson := t.son r rs
        -- exchange pointers of (t, ts) and (r, rs)
        let t := t.setSon v vs { t.son v vs with sp := rson.sp }
        let t := t.setSon r rs { t.son r rs with sp := tson.sp }
        let t := exch t v vs tson.sp r rs
        let t := exch t r rs rson.sp v vs
        let rflag : Bool := (t.dict r).fath.flags &&& leafFlag rs ≠ 0
        let tflag : Bool := (t.dict v).fath.flags &&& leafFlag vs ≠ 0
        let t :=
          if rflag = tflag then t
          else
            let f := (t.dict r).fath
            let t := t.setFath r ⟨f.fp, f.flags ^^^ leafFlag rs⟩
            let f := (t.dict v).fath
            t.setFath v ⟨f.fp, f.flags ^^^ leafFlag vs⟩
        let t := t.setSon v vs { t.son v vs with count := (t.son v vs).count + 1 }
        let t := t.setSon r rs { t.son r rs with count := (t.son r rs).count - 1 }
        let t := if vs then t.setDir qt { t.dir qt with pt := (t.dir qt).pt + 1 } else t
        uptreeInner rc fuel t v vs

/-- The order lists after the son stands at its place. -/
def uptreeIndex (t : Tree) (rc : Int32) (rt : Nat) (p : Stop) : Option Tree :=
  let son := t.son p.r p.rs
  if rc = p.qc then
    let t := t.setSon p.r p.rs { son with top := some p.qt }
    if p.sc + 1 < rc then
      let t := t.setDir p.qt { t.dir p.qt with next := p.st }
      -- dispose of rt
      let t := t.setDir rt { t.dir rt with next := t.flist }
      some { t with flist := some rt }
    else do
      let st ← p.st
      pure (t.setDir st { t.dir st with pt := p.s })
  else if rc = p.sc + 1 then do
    -- create new index at rt
    let (rt, t) ← t.new
    let t := t.setDir rt ⟨p.r, p.st⟩
    let t := t.setDir p.qt { t.dir p.qt with next := some rt }
    let t := match p.st with
      | none => t
      | some st => t.setDir st { t.dir st with pt := p.s }
    pure (t.setSon p.r p.rs { t.son p.r p.rs with top := some rt })
  else some t

/-- The outer loop of `uptree`, from the son `rs` of `r` to the root. -/
def uptreeOuter : Nat → Tree → Nat → Bool → Option Tree
  | 0, _, _, _ => none
  | fuel + 1, t, r, rs => do
    let son := t.son r rs
    let rc := son.count + 1
    let rt ← son.top
    let t := t.setSon r rs { son with count := rc }
    let (t, p) ← uptreeInner rc (2 * nf) t r rs
    let t ← uptreeIndex t rc rt p
    let f := (t.dict p.r).fath
    match f.fp with
    | none =>
      let dirp ← (t.dir t.head).next
      pure { t with dirp := dirp, dirq := (t.dir dirp).next }
    | some r => uptreeOuter fuel t r (f.flags % 2 = 1)

def uptree (t : Tree) (ch : Nat) : Option Tree := do
  let r ← (t.inp ch).fp
  uptreeOuter nf t r ((t.inp ch).flags % 2 = 1)

end Bsdi.Compact
