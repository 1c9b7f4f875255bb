import Mathlib.Tactic.Common

/-!
# The stack of the shell

`memalloc.c`: parse trees and strings lie on a stack of storage blocks. A pointer is a block and an
offset into its `space`; the blocks are a list with `stackp` at its head. `malloc` and `realloc`
answer with a block that is not in use and with what its bytes happen to be. Where the code would
follow a null pointer or subtract pointers into different blocks there is no result.
-/

namespace Bsdi.Sh

abbrev Byte := UInt8

def align (nbytes : Nat) : Nat := (nbytes + 3) / 4 * 4

def minsize : Nat := 504

structure Ptr where
  block : Nat
  off : Nat
  deriving DecidableEq, Repr

/-- `struct stack_block`. -/
structure Block where
  id : Nat
  size : Nat
  space : Nat → Byte

/-- `stackp` with its blocks, `stacknxt` and `stacknleft`. -/
structure Stack where
  blocks : List Block
  nxt : Ptr
  nleft : Nat

/-- `struct stackmark`. -/
structure Mark where
  stackp : Nat
  nxt : Ptr
  nleft : Nat

/-- What an allocation gives: a block and its bytes. -/
structure Answer where
  id : Nat
  bytes : Nat → Byte

def read (blocks : List Block) (p : Ptr) : Option Byte :=
  (blocks.find? fun b => b.id = p.block).map fun b => b.space p.off

def write (blocks : List Block) (p : Ptr) (c : Byte) : List Block :=
  blocks.map fun b => if b.id = p.block then { b with space := Function.update b.space p.off c } else b

namespace Stack

/-- At the start: `stackbase` is empty. -/
def start (bytes : Nat → Byte) : Stack := ⟨[⟨0, minsize, bytes⟩], ⟨0, 0⟩, minsize⟩

/-- A new block for `nbytes`, on top. -/
def newBlock (s : Stack) (nbytes : Nat) (new : Answer) : Stack :=
  let blocksize := max nbytes minsize
  ⟨⟨new.id, blocksize, new.bytes⟩ :: s.blocks, ⟨new.id, 0⟩, blocksize⟩

/-- `stacknxt += nbytes, stacknleft -= nbytes`. -/
def take (s : Stack) (nbytes : Nat) : Stack :=
  { s with nxt := ⟨s.nxt.block, s.nxt.off + nbytes⟩, nleft := s.nleft - nbytes }

def stalloc (s : Stack) (nbytes : Nat) (new : Answer) : Ptr × Stack :=
  let nbytes := align nbytes
  let s := if s.nleft < nbytes then s.newBlock nbytes new else s
  (s.nxt, s.take nbytes)

def stunalloc (s : Stack) (p : Ptr) : Option Stack :=
  if p.block = s.nxt.block ∧ p.off ≤ s.nxt.off then
    some { s with nxt := p, nleft := s.nleft + (s.nxt.off - p.off) }
  else none

def setstackmark (s : Stack) : Mark := ⟨(s.blocks.head?.map (·.id)).getD 0, s.nxt, s.nleft⟩

/-- The loop of `popstackmark`. -/
def popBlocks (stackp : Nat) : List Block → Option (List Block)
  | [] => none
  | b :: bs =>
    if b.id = stackp then some (b :: bs)
    -- `stackbase` is not from `malloc`, and its `prev` is null
    else if bs.isEmpty then none
    else popBlocks stackp bs

def popstackmark (s : Stack) (mark : Mark) : Option Stack :=
  (popBlocks mark.stackp s.blocks).map fun blocks => ⟨blocks, mark.nxt, mark.nleft⟩

/-- `ckrealloc` of the block on top. -/
def reallocBlock (b : Block) (newlen : Nat) (new : Answer) : Block :=
  ⟨new.id, newlen, fun i => if i < b.size ∧ i < newlen then b.space i else new.bytes i⟩

/-- `bcopy(oldspace, p, oldlen)` to the block on top. -/
def bcopyTop (old : List Block) (oldspace : Ptr) (oldlen : Nat) : List Block → List Block
  | [] => []
  | b :: bs =>
    { b with space := fun i =>
        if i < oldlen then (read old ⟨oldspace.block, oldspace.off + i⟩).getD 0 else b.space i } :: bs

/-- The block on top holds nothing but the string that grows, and is not `stackbase`. -/
def atStart (s : Stack) : Bool :=
  match s.blocks with
  | b :: _ :: _ => s.nxt = ⟨b.id, 0⟩
  | _ => false

def growstackblock (s : Stack) (new : Answer) : Stack :=
  let newlen := s.nleft * 2 + 100
  if s.atStart then
    match s.blocks with
    | [] => s
    | b :: bs => ⟨reallocBlock b newlen new :: bs, ⟨new.id, 0⟩, newlen⟩
  else
    let s' := (s.stalloc newlen new).2
    ⟨bcopyTop s.blocks s.nxt s.nleft s'.blocks, (s.stalloc newlen new).1, s'.nleft + newlen⟩

def grabstackblock (s : Stack) (len : Nat) : Stack := s.take (align len)

end Stack

structure Place where
  block : Nat
  off : Nat
  len : Nat
  deriving DecidableEq, Repr

/-- Storage that is handed out, with what was last stored there. -/
structure Handed where
  place : Place
  data : Nat → Byte

/-- A mark, with the blocks and the number of pieces handed out when it was set. -/
structure Outstanding where
  mark : Mark
  ids : List Nat
  live : Nat

/-- The stack, what is handed out of it and the marks that are set, the last one first. -/
structure Shell where
  stack : Stack
  live : List Handed
  marks : List Outstanding

inductive Op
  | setstackmark
  | stalloc (nbytes : Nat) (new : Answer)
  /-- Of the last piece. -/
  | stunalloc
  | growstackblock (new : Answer)
  | grabstackblock (len : Nat)
  /-- To the last mark. -/
  | popstackmark
  /-- The user stores a byte in the `k`-th piece. -/
  | store (k i : Nat) (c : Byte)
  /-- The user stores a byte in the string that grows. -/
  | fill (i : Nat) (c : Byte)

def start (bytes : Nat → Byte) : Shell := ⟨.start bytes, [], []⟩

/-- The piece from `p` on is handed out. -/
def hand (p : Ptr) (len : Nat) (s : Stack) : Handed :=
  ⟨⟨p.block, p.off, len⟩, fun i => (read s.blocks ⟨p.block, p.off + i⟩).getD 0⟩

/-- What an operation does, where it has a result. -/
def step (s : Shell) : Op → Option Shell
  | .setstackmark =>
    some { s with marks :=
      ⟨s.stack.setstackmark, s.stack.blocks.map (·.id), s.live.length⟩ :: s.marks }
  | .stalloc nbytes new =>
    let r := s.stack.stalloc nbytes new
    some { s with stack := r.2, live := hand r.1 (align nbytes) r.2 :: s.live }
  | .stunalloc =>
    match s.live with
    | [] => none
    | b :: live => (s.stack.stunalloc ⟨b.place.block, b.place.off⟩).map fun st =>
        { s with stack := st, live := live }
  | .growstackblock new => some { s with stack := s.stack.growstackblock new }
  | .grabstackblock len =>
    some { s with stack := s.stack.grabstackblock len,
                  live := hand s.stack.nxt (align len) s.stack :: s.live }
  | .popstackmark =>
    match s.marks with
    | [] => none
    | m :: marks => (s.stack.popstackmark m.mark).map fun st =>
        ⟨st, s.live.drop (s.live.length - m.live), marks⟩
  | .store k i c =>
    match s.live[k]? with
    | none => none
    | some b =>
      some { s with
        stack := { s.stack with
          blocks := write s.stack.blocks ⟨b.place.block, b.place.off + i⟩ c }
        live := s.live.set k { b with data := Function.update b.data i c } }
  | .fill i c =>
    some { s with stack := { s.stack with
      blocks := write s.stack.blocks ⟨s.stack.nxt.block, s.stack.nxt.off + i⟩ c } }

def Fresh (s : Shell) (new : Answer) : Prop := ∀ b ∈ s.stack.blocks, b.id ≠ new.id

def intMax : Nat := 2147483647

/-- Proper use: sizes are those of `int`, marks are nested, pieces are given back in turn and after
the last mark, no more is grabbed than there is, and memory is used only where it is handed out.
`malloc` gives a block that is not in use, `realloc` may also give the one it gets. -/
def Proper (s : Shell) : Op → Prop
  | .setstackmark => True
  | .stalloc nbytes new => align nbytes ≤ intMax ∧ Fresh s new
  | .stunalloc => s.live ≠ [] ∧ ∀ m ∈ s.marks.head?, m.live < s.live.length
  | .growstackblock new => s.stack.nleft * 2 + 100 ≤ intMax ∧
      (Fresh s new ∨ s.stack.atStart = true ∧ new.id = s.stack.nxt.block)
  | .grabstackblock len => len ≤ s.stack.nleft
  | .popstackmark => s.marks ≠ []
  | .store k i _ => ∃ b, s.live[k]? = some b ∧ i < b.place.len
  | .fill i _ => i < s.stack.nleft

/-- A block does not move while a mark points to it, and a piece is given back only while its block
is on top. -/
def Steady (s : Shell) : Op → Prop
  | .stunalloc => ∀ b ∈ s.live.head?, b.place.block = s.stack.nxt.block
  | .growstackblock new => s.stack.atStart = true →
      (∃ m ∈ s.marks, m.mark.stackp = s.stack.nxt.block) → new.id = s.stack.nxt.block
  | _ => True

/-- The states that are reached over operations that are admitted. -/
inductive Reached (ok : Shell → Op → Prop) : Shell → Prop
  | start (bytes : Nat → Byte) : Reached ok (start bytes)
  | step {s s' : Shell} {op : Op} : Reached ok s → ok s op → step s op = some s' → Reached ok s'

end Bsdi.Sh
