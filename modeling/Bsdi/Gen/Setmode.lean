import Mathlib.Data.List.Basic
import Mathlib.Tactic.Ring

/-!
# Modes of files

`setmode.c`: `setmode` compiles a mode as of `chmod` into an array of commands, and `getmode`
  applies
these to the mode of a file.
-/

namespace Bsdi.Setmode

/-- `mode_t`. -/
abbrev Mode := BitVec 16

/-- The bits of `sys/stat.h`. -/
def S_IFDIR : Mode := 0o040000#16

def S_ISUID : Mode := 0o4000#16

def S_ISGID : Mode := 0o2000#16

def S_ISTXT : Mode := 0o1000#16

def S_IRWXU : Mode := 0o700#16

def S_IRWXG : Mode := 0o070#16

def S_IRWXO : Mode := 0o007#16

def readBits : Mode := 0o444#16

def writeBits : Mode := 0o222#16

def execBits : Mode := 0o111#16

def standardBits : Mode := S_ISUID ||| S_ISGID ||| S_IRWXU ||| S_IRWXG ||| S_IRWXO

/-- The flags in `cmd2`. -/
structure Cmd2 where
  clr : Bool
  set : Bool
  ubits : Bool
  gbits : Bool
  obits : Bool
  deriving DecidableEq

structure Bitcmd where
  cmd : Char
  cmd2 : Cmd2
  bits : Mode
  deriving DecidableEq

/-- What `u`, `g` and `o` do with the bits `value`, which are those of the others. -/
def copyBits (set : Bitcmd) (value newmode : Mode) : Mode :=
  let clrval := if set.cmd2.set then S_IRWXO else value
  let clear := fun (flag : Bool) (shift : Nat) (m : Mode) =>
    if set.cmd2.clr && flag then m &&& ~~~((clrval <<< shift) &&& set.bits) else m
  let add := fun (flag : Bool) (shift : Nat) (m : Mode) =>
    if set.cmd2.set && flag then m ||| ((value <<< shift) &&& set.bits) else m
  let m := clear set.cmd2.obits 0 (clear set.cmd2.gbits 3 (clear set.cmd2.ubits 6 newmode))
  add set.cmd2.obits 0 (add set.cmd2.gbits 3 (add set.cmd2.ubits 6 m))

/-- `X` applies to a file of mode `omode`. -/
def XApplies (omode : Mode) : Prop := omode &&& (S_IFDIR ||| execBits) ≠ 0#16

instance (omode : Mode) : Decidable (XApplies omode) := inferInstanceAs (Decidable (_ ≠ _))

/-- One command, if it is one. -/
def command (omode : Mode) (set : Bitcmd) (newmode : Mode) : Option Mode :=
  if set.cmd = 'u' then some (copyBits set ((newmode &&& S_IRWXU) >>> 6) newmode)
  else if set.cmd = 'g' then some (copyBits set ((newmode &&& S_IRWXG) >>> 3) newmode)
  else if set.cmd = 'o' then some (copyBits set (newmode &&& S_IRWXO) newmode)
  else if set.cmd = '+' then some (newmode ||| set.bits)
  else if set.cmd = '-' then some (newmode &&& ~~~set.bits)
  else if set.cmd = 'X' then
    if XApplies omode then some (newmode ||| set.bits) else some newmode
  else none

/-- The loop of `getmode` over the rest of the array, if it ends in it. -/
def getmodeLoop (omode : Mode) : List Bitcmd → Mode → Option Mode
  | [], _ => none
  | set :: rest, newmode =>
    match command omode set newmode with
    | some newmode => getmodeLoop omode rest newmode
    | none => some newmode

/-- `getmode(bbox, omode)` on an allocated array. -/
def getmode (bbox : List Bitcmd) (omode : Mode) : Option Mode := getmodeLoop omode bbox omode

def merges (op : Char) : Bool := op = '+' || op = '-' || op = 'X'

structure Merged where
  setbits : Mode
  clrbits : Mode
  xbits : Mode

def Merged.add (m : Merged) (b : Bitcmd) : Merged :=
  if b.cmd = '-' then
    ⟨m.setbits &&& ~~~b.bits, m.clrbits ||| b.bits, m.xbits &&& ~~~b.bits⟩
  else if b.cmd = '+' then
    ⟨m.setbits ||| b.bits, m.clrbits &&& ~~~b.bits, m.xbits &&& ~~~b.bits⟩
  else ⟨m.setbits, m.clrbits, m.xbits ||| (b.bits &&& ~~~m.setbits)⟩

def mergeRun (m : Merged) : List Bitcmd → Option (Merged × Nat)
  | [] => none
  | b :: rest =>
    if merges b.cmd then (mergeRun (m.add b) rest).map fun r => (r.1, r.2 + 1) else some (m, 0)

def entry (cmd : Char) (bits : Mode) : List Bitcmd :=
  if bits = 0#16 then [] else [⟨cmd, ⟨false, false, false, false, false⟩, bits⟩]

def Merged.commands (m : Merged) : List Bitcmd :=
  entry '-' m.clrbits ++ (entry '+' m.setbits ++ entry 'X' m.xbits)

/-- The commands are stored from `set` on. -/
def store (mem : List Bitcmd) (set : Nat) : List Bitcmd → List Bitcmd
  | [] => mem
  | b :: rest => store (mem.set set b) (set + 1) rest

/-- The loop of `compress_mode`, which works in place. -/
def compressLoop : Nat → List Bitcmd → Nat → Nat → Option (List Bitcmd)
  | 0, _, _, _ => none
  | fuel + 1, mem, set, nset =>
    match mem[nset]? with
    | none => none
    | some b =>
      if merges b.cmd then
        match mergeRun ⟨0#16, 0#16, 0#16⟩ (mem.drop nset) with
        | none => none
        | some (m, n) =>
          let out := m.commands
          compressLoop fuel (store mem set out) (set + out.length) (nset + n)
      else
        let mem := mem.set set b
        if b.cmd = '\x00' then some mem else compressLoop fuel mem (set + 1) (nset + 1)

def compressMode (mem : List Bitcmd) : Option (List Bitcmd) :=
  compressLoop (mem.length + 1) mem 0 0

structure Filled where
  mem : List Bitcmd
  set : Nat

/-- The array is made longer when it is full; `stale` is what newly allocated entries hold. -/
def Filled.grow (stale : Nat → Bitcmd) (a : Filled) : Filled :=
  if a.mem.length ≤ a.set + 2 then
    { a with mem := a.mem ++ (List.range 4).map fun i => stale (a.mem.length + i) }
  else a

/-- An entry gets a command and bits, and keeps its `cmd2`. -/
def Filled.put (a : Filled) (cmd : Char) (bits : Mode) : Filled :=
  ⟨a.mem.modify a.set fun b => { b with cmd := cmd, bits := bits }, a.set + 1⟩

/-- `addcmd` with bits, for `=`, `+`, `-` and `X`. -/
def addcmd (a : Filled) (op : Char) (who perm mask : Mode) : Filled :=
  let bits := (if who ≠ 0#16 then who else mask) &&& perm
  if op = '=' then (a.put '-' (if who ≠ 0#16 then who else standardBits)).put '+' bits
  else a.put op bits

/-- `addcmd` for `u`, `g` and `o`. -/
def addcopy (a : Filled) (cmd : Char) (who : Mode) (op : Char) (mask : Mode) : Filled :=
  let named (bit : Mode) : Bool := who = 0#16 || who &&& bit ≠ 0#16
  let cmd2 : Cmd2 :=
    ⟨op = '-' || op = '=', op = '+' || op = '=', named 0o400#16, named 0o040#16, named 0o004#16⟩
  ⟨a.mem.set a.set ⟨cmd, cmd2, if who ≠ 0#16 then ~~~0#16 else mask⟩, a.set + 1⟩

/-- The variables of `setmode` in its loops. -/
structure Locals where
  out : Filled
  who : Mode
  op : Char
  perm : Mode
  permXbits : Mode
  equalopdone : Bool

def isOp (c : Char) : Bool := c = '+' || c = '-' || c = '='

variable (stale : Nat → Bitcmd) (mask : Mode)

/-- `ADDCMD` with the pending permissions. -/
def Locals.addPerm (l : Locals) : Locals :=
  { l with out := addcmd (l.out.grow stale) l.op l.who l.perm mask, perm := 0#16 }

def Locals.addX (l : Locals) : Locals :=
  { l with out := addcmd (l.out.grow stale) 'X' l.who l.permXbits mask, permXbits := 0#16 }

def whoBits (c : Char) : Option Mode :=
  if c = 'a' then some standardBits
  else if c = 'u' then some (S_ISUID ||| S_IRWXU)
  else if c = 'g' then some (S_ISGID ||| S_IRWXG)
  else if c = 'o' then some S_IRWXO
  else none

/-- `getop`, with the operator found. -/
def Locals.getop (l : Locals) (op : Char) : Locals :=
  { l with op := op, equalopdone := if op = '=' then false else l.equalopdone,
           who := l.who &&& ~~~S_ISTXT, perm := 0#16, permXbits := 0#16 }

/-- The arm of `u`, `g` and `o` in the loop over permissions. -/
def Locals.copy (l : Locals) (c : Char) : Locals :=
  let l := if l.perm ≠ 0#16 then l.addPerm stale mask else l
  let l := if l.op = '=' then { l with equalopdone := true } else l
  let l := if l.op = '+' ∧ l.permXbits ≠ 0#16 then l.addX stale mask else l
  { l with out := addcopy (l.out.grow stale) c l.who l.op mask }

/-- A letter in the loop over permissions. -/
def Locals.letter (l : Locals) (c : Char) : Option Locals :=
  if c = 'r' then some { l with perm := l.perm ||| readBits }
  else if c = 's' then
    some (if l.who &&& ~~~S_IRWXO ≠ 0#16 then { l with perm := l.perm ||| (S_ISUID ||| S_ISGID) }
      else l)
  else if c = 't' then some { l with who := l.who ||| S_ISTXT, perm := l.perm ||| S_ISTXT }
  else if c = 'w' then some { l with perm := l.perm ||| writeBits }
  else if c = 'X' then some { l with permXbits := execBits }
  else if c = 'x' then some { l with perm := l.perm ||| execBits }
  else if c = 'u' ∨ c = 'g' ∨ c = 'o' then some (l.copy stale mask c)
  else none

def Locals.done (l : Locals) : Locals :=
  let l :=
    if l.perm ≠ 0#16 ∨ l.op = '=' ∧ l.equalopdone = false then
      { if l.op = '=' then { l with equalopdone := true } else l with }.addPerm stale mask
    else l
  if l.permXbits ≠ 0#16 then l.addX stale mask else l

/-- The loops of `setmode` from a character on: in the loop over the letters that say who, or in
the loop over permissions. -/
def clauses : Bool → Locals → List Char → Option Filled
  | true, _, [] => none
  | true, l, c :: p =>
    match whoBits c with
    | some bits => clauses true { l with who := l.who ||| bits } p
    | none => if isOp c then clauses false (l.getop c) p else none
  | false, l, [] => some (l.done stale mask).out
  | false, l, c :: p =>
    match l.letter stale mask c with
    | some l => clauses false l p
    | none =>
      let l := l.done stale mask
      if c = ',' then clauses true { l with who := 0#16 } p
      else if isOp c then clauses false (l.getop c) p
      else none

/-- `SET_LEN + 2` entries. -/
def allocated : Filled := ⟨(List.range 8).map stale, 0⟩

/-- The symbolic part of `setmode`, up to the terminator. -/
def symbolic (p : List Char) : Option (List Bitcmd) := do
  let a ← clauses stale mask true ⟨allocated stale, 0#16, '+', 0#16, 0#16, false⟩ p
  some (a.mem.modify a.set fun b => { b with cmd := '\x00' })

def isdigit (c : Char) : Bool := '0' ≤ c && c ≤ '9'

def isoctal (c : Char) : Bool := '0' ≤ c && c ≤ '7'

/-- `strtol(p, NULL, 8)` on digits. -/
def strtol8 (p : List Char) : Nat :=
  min (2 ^ 31 - 1) ((p.takeWhile isoctal).foldl (fun n c => 8 * n + (c.toNat - '0'.toNat)) 0)

def absolute (p : List Char) : Option (List Bitcmd) :=
  let perm : Mode := BitVec.ofNat 16 (strtol8 p)
  if perm &&& ~~~(standardBits ||| S_ISTXT) ≠ 0#16 then none
  else if p.tail.all isoctal then
    some (addcmd ((allocated stale).grow stale) '=' (standardBits ||| S_ISTXT) perm mask).mem
  else none

/-- `setmode(p)` with the given file creation mask. -/
def setmode (umask : Mode) (p : List Char) : Option (List Bitcmd) :=
  match p with
  | [] => none
  | c :: _ =>
    let mask := ~~~umask
    if isdigit c then absolute stale mask p
    else (symbolic stale mask p).bind compressMode

end Bsdi.Setmode
