import Mathlib.Data.List.Basic
import Bsdi.Sh.Memalloc

/-!
# Reading a word

The tables of `mksyntax.c` and `readtoken1` of `parser.c`, on the bytes that are left of the input;
the end of the input is `none`. Quoted text leaves with `CTLESC` before each byte that the expansion
would take for one of its own. The parser of the commands inside a word is a parameter.
-/

namespace Bsdi.Sh

inductive Class
  | cword | cnl | cback | csquote | cdquote | cendquote | cbquote | cvar | cendvar | clp | crp | ceof
  | cctl | cspcl
  deriving DecidableEq, Repr

def ctlesc : Byte := 0x81
def ctlvar : Byte := 0x82
def ctlendvar : Byte := 0x83
def ctlbackq : Byte := 0x84
def ctlquote : Byte := 0x01
def ctlari : Byte := 0x86
def ctlendari : Byte := 0x87

def newline : Byte := 10
def dquote : Byte := 34
def dollar : Byte := 36
def squote : Byte := 39
def slash : Byte := 47
def backslash : Byte := 92
def backquote : Byte := 96
def tilde : Byte := 126

/-- `init`: the entries that every table has. -/
def initTable (c : Byte) : Class :=
  if c ∈ [ctlesc, ctlvar, ctlendvar, ctlbackq, ctlbackq + ctlquote, ctlari, ctlendari] then .cctl
  else .cword

/-- `add` of `mksyntax.c`. -/
def add (p : List Byte) (type : Class) (table : Byte → Class) : Byte → Class :=
  fun c => if c ∈ p then type else table c

/-- The bytes `<>();&| \t`. -/
def spcl : List Byte := [60, 62, 40, 41, 59, 38, 124, 32, 9]

/-- The bytes `!*?[=~:/`. -/
def quotedSpecial : List Byte := [33, 42, 63, 91, 61, tilde, 58, slash]

/-- `BASESYNTAX`, `DQSYNTAX`, `SQSYNTAX` and `ARISYNTAX`. -/
inductive Table
  | base | dq | sq | ari
  deriving DecidableEq, Repr

/-- The tables as `mksyntax.c` prints them: later entries win. -/
def Table.entry : Table → Byte → Class
  | .base => add spcl .cspcl <| add [125] .cendvar <| add [dollar] .cvar <|
      add [backquote] .cbquote <| add [dquote] .cdquote <| add [squote] .csquote <|
      add [backslash] .cback <| add [newline] .cnl initTable
  | .dq => add quotedSpecial .cctl <| add [125] .cendvar <| add [dollar] .cvar <|
      add [backquote] .cbquote <| add [dquote] .cendquote <| add [backslash] .cback <|
      add [newline] .cnl initTable
  | .sq => add quotedSpecial .cctl <| add [squote] .cendquote <| add [newline] .cnl initTable
  | .ari => add [41] .crp <| add [40] .clp <| add [125] .cendvar <| add [dollar] .cvar <|
      add [dquote] .cdquote <| add [squote] .csquote <| add [backquote] .cbquote <|
      add [backslash] .cback <| add [newline] .cnl initTable

/-- `syntax[c]`, with `PEOF` for the end of the input. -/
def Table.cls (t : Table) : Option Byte → Class
  | none => .ceof
  | some c => t.entry c

def isDigit (c : Byte) : Bool := 48 ≤ c && c ≤ 57

def isName (c : Byte) : Bool := (65 ≤ c && c ≤ 90) || (97 ≤ c && c ≤ 122) || c == 95

def isInName (c : Byte) : Bool := isName c || isDigit c

/-- The bytes `#?$!-*@` and the digits. -/
def isSpecial (c : Byte) : Bool := c ∈ ([35, 63, dollar, 33, 45, 42, 64] : List Byte) || isDigit c

/-- The local variables of `readtoken1` and what is left of the input. -/
structure Reader (α : Type) where
  table : Table
  quotef : Nat
  dblquote : Bool
  varnest : Nat
  arinest : Nat
  parenlevel : Nat
  prevtable : Table
  out : List Byte
  bqlist : List α
  input : List Byte

/-- How the parser reads the commands of a substitution: those of a string, to its end, and those
before a closing parenthesis, with the input after it. -/
structure Commands (α : Type) where
  old : List Byte → Except String α
  new : List Byte → Except String (α × List Byte)

/-- The redirections `>>`, `>&`, `>`, `<<`, `<&` and `<`. -/
inductive Redir
  | nappend | ntofd | nto | nhere (striptabs : Bool) | nfromfd | nfrom
  deriving DecidableEq, Repr

/-- `TWORD` with `wordtext`, `quoteflag` and `backquotelist`, or `TREDIR` with `redirnode`. -/
inductive Token (α : Type)
  | tword (wordtext : List Byte) (quoteflag : Nat) (backquotelist : List α)
  | tredir (fd : Nat) (type : Redir)

/-- `synerror` with its text, or that the turns of a loop are used up. -/
inductive Fault
  | synerror (msg : String)
  | turns
  deriving DecidableEq, Repr

section

variable {α : Type} (cmds : Commands α)

namespace Reader

/-- `USTPUTC` of some bytes. -/
def put (r : Reader α) (l : List Byte) : Reader α := { r with out := r.out ++ l }

def pgetc (r : Reader α) : Option Byte × Reader α := (r.input.head?, { r with input := r.input.tail })

/-- The part of `parsebackq` for the old style: what stands before the closing backquote. -/
def backquoted (dblquote : Bool) : List Byte → List Byte × List Byte
  | [] => ([], [])
  | [c] => if c = backquote then ([], []) else ([c], [])
  | c :: d :: l =>
    if c = backquote then ([], d :: l)
    else if c = backslash then
      let kept := d = backslash || d = backquote || d = dollar || (dblquote && d = dquote)
      ((if kept then [d] else [backslash, d]) ++ (backquoted dblquote l).1, (backquoted dblquote l).2)
    else (c :: (backquoted dblquote (d :: l)).1, (backquoted dblquote (d :: l)).2)

/-- The mark that `parsebackq` leaves in the word. -/
def mark (r : Reader α) : Byte :=
  if r.arinest ≠ 0 || r.dblquote then ctlbackq ||| ctlquote else ctlbackq

def parsebackqOld (r : Reader α) : Except Fault (Reader α) :=
  let (str, rest) := backquoted r.dblquote r.input
  match cmds.old str with
  | .error e => .error (.synerror e)
  | .ok n => .ok { r with out := r.out ++ [r.mark], bqlist := r.bqlist ++ [n], input := rest }

def parsebackqNew (r : Reader α) : Except Fault (Reader α) :=
  match cmds.new r.input with
  | .error e => .error (.synerror e)
  | .ok (n, rest) => .ok { r with out := r.out ++ [r.mark], bqlist := r.bqlist ++ [n], input := rest }

def parsearith (r : Reader α) : Reader α :=
  let r := { r with arinest := r.arinest + 1 }
  if r.arinest = 1 then { r with prevtable := r.table, table := .ari, out := r.out ++ [ctlari] }
  else r.put [40]

def subName : List Byte → Option (List Byte × List Byte)
  | [] => none
  | c :: l =>
    if isName c then some ((c :: l).span isInName)
    else if isSpecial c then some ([c], l)
    else none

/-- `VSTYPE` and `VSNUL` after the name in braces, and what follows. -/
def subType (l : List Byte) : Option (Byte × Byte × List Byte) :=
  let (flags, l) := if l.head? = some 58 then (0x20, l.tail) else (0, l)
  match l with
  | [] => none
  | c :: l =>
    match ([125, 45, 43, 63, 61] : List Byte).idxOf? c with
    | none => none
    | some i => some (UInt8.ofNat (i + 1), flags, l)

/-- The part of `parsesub` for a variable, from the byte after the dollar sign. -/
def parsevar (r : Reader α) : Except Fault (Reader α) :=
  let brace := r.input.head? = some 123
  let quote : Byte := if r.dblquote || r.arinest ≠ 0 then 0x40 else 0
  match subName (if brace then r.input.tail else r.input) with
  | none => .error (.synerror "Bad substitution")
  | some (name, l) =>
    if brace then
      match subType l with
      | none => .error (.synerror "Bad substitution")
      | some (subtype, flags, l) => .ok { r with
          out := r.out ++ [ctlvar, subtype ||| flags ||| quote] ++ name ++ [61]
          varnest := if subtype ≠ 1 then r.varnest + 1 else r.varnest
          input := l }
    else .ok { r with out := r.out ++ [ctlvar, 1 ||| quote] ++ name ++ [61], input := l }

def parsesub (r : Reader α) : Except Fault (Reader α) :=
  match r.input with
  | [] => .ok (r.put [dollar])
  | c :: l =>
    if c = 40 then
      if l.head? = some 40 then .ok (parsearith { r with input := l.tail })
      else parsebackqNew cmds { r with input := l }
    else if c = 123 || isName c || isSpecial c then parsevar r
    else .ok (r.put [dollar])

/-- `case CBACK`. -/
def backslashed (eofmark : Option (List Byte)) (r : Reader α) : Reader α :=
  match r.input with
  | [] => r.put [backslash]
  | c :: l =>
    let r := { r with input := l }
    if c = newline then r
    else
      let kept := r.dblquote && c ≠ backslash && c ≠ backquote && c ≠ dollar &&
        (c ≠ dquote || eofmark.isSome)
      let r := if kept then r.put [backslash] else r
      let r := if Table.sq.entry c = .cctl then r.put [ctlesc] else r
      { r.put [c] with quotef := r.quotef + 1 }

/-- `case CRP`. -/
def closeParen (r : Reader α) : Reader α :=
  if 0 < r.parenlevel then { r.put [41] with parenlevel := r.parenlevel - 1 }
  else if r.input.head? = some 41 then
    let r := { r with arinest := r.arinest - 1, input := r.input.tail }
    if r.arinest = 0 then { r.put [ctlendari] with table := r.prevtable } else r.put [41]
  else r.put [41]

/-- `case CENDQUOTE`. -/
def endquote (eofmark : Option (List Byte)) (c : Byte) (r : Reader α) : Reader α :=
  if eofmark.isSome then r.put [c]
  else { r with
    table := if r.arinest ≠ 0 then .ari else .base
    quotef := r.quotef + 1
    dblquote := false }

end Reader

/-- Where a turn of the inner loop leads: to the next byte, to the next line or to `endword`. -/
inductive Turn (α : Type)
  | next (r : Reader α)
  | line (r : Reader α)
  | endword (r : Reader α)

/-- The `switch`. -/
def switch (eofmark : Option (List Byte)) (c : Option Byte) (r : Reader α) :
    Except Fault (Turn α) :=
  match c with
  | none => .ok (.endword r)
  | some c =>
    match r.table.entry c with
    | .cnl => if r.table = .base then .ok (.endword r) else .ok (.line (r.put [c]))
    | .cword => .ok (.next (r.put [c]))
    | .cctl => .ok (.next (if eofmark = none ∨ r.dblquote then r.put [ctlesc, c] else r.put [c]))
    | .cback => .ok (.next (r.backslashed eofmark))
    | .csquote => .ok (.next { r with table := .sq })
    | .cdquote => .ok (.next { r with table := .dq, dblquote := true })
    | .cendquote => .ok (.next (r.endquote eofmark c))
    | .cvar => (r.parsesub cmds).map .next
    | .cendvar =>
      if 0 < r.varnest then .ok (.next { r.put [ctlendvar] with varnest := r.varnest - 1 })
      else .ok (.next (r.put [c]))
    | .clp => .ok (.next { r.put [c] with parenlevel := r.parenlevel + 1 })
    | .crp => .ok (.next r.closeParen)
    | .cbquote => (r.parsebackqOld cmds).map .next
    | .ceof => .ok (.endword r)
    | .cspcl => if r.varnest = 0 then .ok (.endword r) else .ok (.next (r.put [c]))

/-- What stands before the `switch`: inside backquotes a backslash before a backquote is dropped. -/
def unslash (parsebackquote : Bool) (c : Option Byte) (r : Reader α) : Option Byte × Reader α :=
  if parsebackquote && c = some backslash && r.input.head? = some backquote then
    (some backquote, { r with input := r.input.tail })
  else (c, r)

def eofmarklen : Nat := 79

/-- `pfgets`: a line, or as much of it as fits in `len` bytes with the nul. -/
def pfgets : (len : Nat) → List Byte → List Byte × List Byte
  | 0, l => ([], l)
  | 1, l => ([], l)
  | _ + 2, [] => ([], [])
  | len + 2, c :: l =>
    if c = newline then ([c], l)
    else (c :: (pfgets (len + 1) l).1, (pfgets (len + 1) l).2)

/-- `CHECKEND`: at the start of a line of a here document. -/
def checkend (eofmark : Option (List Byte)) (striptabs : Bool) (c : Option Byte) (r : Reader α) :
    Option Byte × Reader α :=
  match eofmark with
  | none => (c, r)
  | some m =>
    let skipped := (c.toList ++ r.input).dropWhile (· = 9)
    let (c, r) := if striptabs && c.isSome then
      (skipped.head?, { r with input := skipped.tail }) else (c, r)
    if c ≠ none ∧ c = m.head? then
      let (line, rest) := pfgets (eofmarklen + 1) r.input
      if line ≠ [] ∧ (m.tail ++ [newline]).isPrefixOf line then (none, { r with input := rest })
      else (c, r)
    else (c, r)

/-- `parseredir`: the operator after `<` or `>` and what is left of the input. -/
def parseredir (c : Byte) (input : List Byte) : Redir × List Byte :=
  let d := input.head?
  if c = 62 then
    if d = some 62 then (.nappend, input.tail)
    else if d = some 38 then (.ntofd, input.tail)
    else (.nto, input)
  else if d = some 60 then
    if input.tail.head? = some 45 then (.nhere true, input.tail.tail) else (.nhere false, input.tail)
  else if d = some 38 then (.nfromfd, input.tail)
  else (.nfrom, input)

/-- What stands after `endword`: the token and what is left of the input. -/
def endword (parsebackquote : Bool) (eofmark : Option (List Byte)) (c : Option Byte) (r : Reader α) :
    Except Fault (Token α × List Byte) :=
  if r.table = .ari then .error (.synerror "Missing '))'")
  else if r.table ≠ .base ∧ ¬ parsebackquote ∧ eofmark = none then
    .error (.synerror "Unterminated quoted string")
  else if r.varnest ≠ 0 then .error (.synerror "Missing '\x7d'")
  else
    let word := Token.tword r.out r.quotef r.bqlist
    match eofmark, c with
    | none, some c =>
      if (c = 62 ∨ c = 60) ∧ r.quotef = 0 ∧ r.out.length + 1 ≤ 2 ∧
          (r.out = [] ∨ isDigit (r.out.headD 0)) then
        let (type, rest) := parseredir c r.input
        let fd := match r.out with
          | [] => if c = 62 then 1 else 0
          | d :: _ => d.toNat - 48
        .ok (.tredir fd type, rest)
      else .ok (word, c :: r.input)
    | none, none => .ok (word, r.input)
    | some _, _ => .ok (word, r.input)

/-- The two loops, for at most so many turns. -/
def readloop (parsebackquote : Bool) (eofmark : Option (List Byte)) (striptabs : Bool) :
    Nat → Option Byte → Reader α → Except Fault (Token α × List Byte)
  | 0, _, _ => .error .turns
  | n + 1, c, r =>
    let (c, r) := unslash parsebackquote c r
    match switch cmds eofmark c r with
    | .error e => .error e
    | .ok (.endword r) => endword parsebackquote eofmark c r
    | .ok (.next r) => readloop parsebackquote eofmark striptabs n r.pgetc.1 r.pgetc.2
    | .ok (.line r) =>
      let (c, r) := checkend eofmark striptabs r.pgetc.1 r.pgetc.2
      readloop parsebackquote eofmark striptabs n c r

/-- `readtoken1`, for at most `n` bytes of the word. -/
def readtoken1 (parsebackquote : Bool) (n : Nat) (firstc : Option Byte) (table : Table)
    (eofmark : Option (List Byte)) (striptabs : Bool) (input : List Byte) :
    Except Fault (Token α × List Byte) :=
  let r : Reader α := ⟨table, 0, table = .dq, 0, 0, 0, table, [], [], input⟩
  let (c, r) := checkend eofmark striptabs firstc r
  readloop cmds parsebackquote eofmark striptabs n c r

end

end Bsdi.Sh
