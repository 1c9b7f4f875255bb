import Mathlib.Tactic.Common

/-!
# Strips and state sets

A compiled expression is a strip of operators; a state stands before the operator of its number.
`engine.c` is compiled over two representations of sets of states: the bits of a `long`, and an
array of characters. An array that is passed twice to `step` is one array, and a `long` is copied.
-/

namespace Bsdi.Regex

abbrev Byte := UInt8

/-- The operators of `regex2.h`, with their operands. -/
inductive Sop
  | oend
  | ochar (c : Byte)
  | obol
  | oeol
  | oany
  | oanyof (cs : Nat)
  | oback_ (i : Nat)
  | o_back (i : Nat)
  | oplus_ (fwd : Nat)
  | o_plus (back : Nat)
  | oquest_ (fwd : Nat)
  | o_quest (back : Nat)
  | olparen (i : Nat)
  | orparen (i : Nat)
  | och_ (fwd : Nat)
  | oor1 (back : Nat)
  | oor2 (fwd : Nat)
  | o_ch (back : Nat)
  | obow
  | oeow
  deriving DecidableEq, Repr

/-- `struct re_guts`. -/
structure Guts where
  strip : List Sop
  sets : Nat → Byte → Bool
  /-- `REG_NOSUB` of `cflags`. -/
  nosub : Bool
  /-- `REG_NEWLINE` of `cflags`. -/
  newline : Bool
  firststate : Nat
  laststate : Nat
  nbol : Nat
  neol : Nat
  must : Option (List Byte)
  nsub : Nat
  backrefs : Bool
  nplus : Nat

namespace Guts

variable (g : Guts)

def nstates : Nat := g.strip.length

/-- The operator at `pc`. -/
def op (pc : Nat) : Sop := g.strip.getD pc .oend

end Guts

/-- A character, or one of the codes behind `CHAR_MAX` that `step` is called with. -/
inductive Code
  | char (c : Byte)
  | bol
  | eol
  | boleol
  | nothing
  | bow
  | eow
  deriving DecidableEq, Repr

/-- A representation of state sets: the macros of `regexec.c`. -/
structure Rep (σ : Type) where
  clear : σ
  set1 : σ → Nat → σ
  isset : σ → Nat → Bool
  eq : σ → σ → Bool
  /-- `FWD(dst, src, n)` at `here`. -/
  fwd : σ → σ → Nat → Nat → σ
  /-- `BACK(dst, src, n)` at `here`. -/
  back : σ → σ → Nat → Nat → σ
  /-- `ISSETBACK(v, n)` at `here`. -/
  issetback : σ → Nat → Nat → Bool
  /-- A set that is passed twice is shared. -/
  shared : Bool

/-- States as the bits of a `long`. -/
def small : Rep (BitVec 32) where
  clear := 0
  set1 v n := v ||| (1#32 <<< n)
  isset v n := v &&& (1#32 <<< n) != 0
  eq a b := a == b
  fwd dst src here n := dst ||| ((src &&& (1#32 <<< here)) <<< n)
  back dst src here n := dst ||| ((src &&& (1#32 <<< here)) >>> n)
  issetback v here n := v &&& ((1#32 <<< here) >>> n) != 0
  shared := false

/-- States as an array of `nstates` characters. -/
def large (nstates : Nat) : Rep (List Bool) where
  clear := List.replicate nstates false
  set1 v n := v.set n true
  isset v n := v.getD n false
  eq a b := a == b
  fwd dst src here n := dst.set (here + n) (dst.getD (here + n) false || src.getD here false)
  back dst src here n := dst.set (here - n) (dst.getD (here - n) false || src.getD here false)
  issetback v here n := v.getD (here - n) false
  shared := true

/-- The operator lets the code through to the next one: the cases of `step` that look at `ch`. -/
def Sop.passes (g : Guts) (ch : Code) : Sop → Bool
  | .ochar c => ch = .char c
  | .obol => ch = .bol || ch = .boleol
  | .oeol => ch = .eol || ch = .boleol
  | .obow => ch = .bow
  | .oeow => ch = .eow
  | .oany => match ch with
    | .char _ => true
    | _ => false
  | .oanyof cs => match ch with
    | .char c => g.sets cs c
    | _ => false
  | _ => false

/-- The loop that looks for the end of a choice, from the `OOR2` at `pc`. -/
def findCh (g : Guts) : Nat → Nat → Option Nat
  | 0, _ => none
  | fuel + 1, pc =>
    match g.op pc with
    | .o_ch _ => some pc
    | .oor2 n => findCh g fuel (pc + n)
    | _ => none

variable {σ : Type}

/-- The `switch` of `step`. `bef` is how the set before is read while `aft` is written. -/
def visit (rep : Rep σ) (g : Guts) (bef : σ → σ) (ch : Code) (pc : Nat) (aft : σ) : σ :=
  match g.op pc with
  | .oback_ _ | .o_back _ | .oplus_ _ | .o_quest _ | .olparen _ | .orparen _ | .o_ch _ =>
    rep.fwd aft aft pc 1
  | .o_plus n =>
    let aft := rep.fwd aft aft pc 1
    rep.back aft aft pc n
  | .oquest_ n | .och_ n =>
    let aft := rep.fwd aft aft pc 1
    rep.fwd aft aft pc n
  | .oor1 _ =>
    match findCh g g.nstates (pc + 1) with
    | some e => rep.fwd aft aft pc (e - pc)
    | none => aft
  | .oor2 n =>
    let aft := rep.fwd aft aft pc 1
    match g.op (pc + n) with
    | .o_ch _ => aft
    | _ => rep.fwd aft aft pc n
  | s => if s.passes g ch then rep.fwd aft (bef aft) pc 1 else aft

/-- Whether the body of the loop that ends at `pc` has to be looked at again. -/
def again (rep : Rep σ) (g : Guts) (pc : Nat) (aft aft' : σ) : Option Nat :=
  match g.op pc with
  | .o_plus n =>
    if !rep.issetback (rep.fwd aft aft pc 1) pc n && rep.issetback aft' pc n then some n else none
  | _ => none

/-- The loop of `step`. Every second look at a loop comes with a new state, so that the bound on
the turns is not reached. -/
def stepLoop (rep : Rep σ) (g : Guts) (stop : Nat) (bef : σ → σ) (ch : Code) :
    Nat → Nat → σ → σ
  | 0, _, aft => aft
  | fuel + 1, pc, aft =>
    if pc = stop then aft
    else
      let aft' := visit rep g bef ch pc aft
      match again rep g pc aft aft' with
      | some n => stepLoop rep g stop bef ch fuel (pc - n) aft'
      | none => stepLoop rep g stop bef ch fuel (pc + 1) aft'

/-- The turns of the loop of `step`. -/
def Guts.turns (g : Guts) : Nat := (g.nstates + 1) * (g.nstates + 1)

/-- `step(g, start, stop, bef, ch, aft)` with two sets. -/
def step (rep : Rep σ) (g : Guts) (start stop : Nat) (bef : σ) (ch : Code) (aft : σ) : σ :=
  stepLoop rep g stop (fun _ => bef) ch g.turns start aft

/-- `step(g, start, stop, st, ch, st)`: the set is passed twice. -/
def stepSame (rep : Rep σ) (g : Guts) (start stop : Nat) (ch : Code) (st : σ) : σ :=
  stepLoop rep g stop (fun aft => if rep.shared then aft else st) ch g.turns start st

end Bsdi.Regex
