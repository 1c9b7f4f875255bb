import Bsdi.Sh.Readtoken

/-!
# Expanding a word

`expandarg` of `expand.c`: substitution by `argstr`, splitting at the bytes of `IFS`, file names for
patterns, and the removal of `CTLESC`. A string is the list of its bytes before the nul, so that a
pointer at its end reads nul, and one past it does too. What needs the rest of the shell is a
parameter.
-/

namespace Bsdi.Sh

/-- `EXP_FULL`, `EXP_TILDE`, `EXP_VARTILDE`, `EXP_REDIR` and `EXP_CASE`. -/
structure Flags where
  full : Bool
  tilde : Bool
  vartilde : Bool
  redir : Bool
  pattern : Bool
  deriving DecidableEq, Repr

/-- `struct ifsregion`. -/
structure Region where
  begoff : Nat
  endoff : Nat
  nulonly : Bool
  deriving DecidableEq, Repr

/-- `expdest`, the list at `ifsfirst` and `argbackq`. -/
structure Expansion (α : Type) where
  dest : List Byte
  regions : List Region
  argbackq : List α

/-- `evalvar`, `expbackq` and `expari`, with `none` where the shell gives up, and what a tilde with a
login name stands for. -/
structure Substitutions (α : Type) where
  evalvar : List Byte → Flags → Expansion α → Option (List Byte × Expansion α)
  expbackq : α → Bool → Flags → Expansion α → Option (Expansion α)
  expari : Flags → Expansion α → Option (Expansion α)
  home : List Byte → Option (List Byte)

/-- `stat` and `opendir` with `readdir`. -/
structure Files where
  stat : List Byte → Bool
  entries : List Byte → Option (List (List Byte))

section

variable {α : Type} (subst : Substitutions α)

def Expansion.put (e : Expansion α) (l : List Byte) : Expansion α := { e with dest := e.dest ++ l }

/-- `flag & (EXP_FULL | EXP_CASE)`. -/
def Flags.quotes (flag : Flags) : Bool := flag.full || flag.pattern

/-- `exptilde`, at a tilde: what is left of the text and the expansion. -/
def exptilde (p : List Byte) (flag : Flags) (e : Expansion α) : List Byte × Expansion α :=
  let stops (c : Byte) : Bool := c = ctlesc || c = slash || (c = 58 && flag.vartilde)
  let (name, rest) := p.tail.span fun c => !stops c
  if rest.head? = some ctlesc then (p, e)
  else
    match subst.home name with
    | none => (p, e)
    | some [] => (p, e)
    | some home => (rest, e.put (home.flatMap fun c =>
        if flag.quotes && Table.sq.entry c = .cctl then [ctlesc, c] else [c]))

/-- The loop of `argstr`, for at most so many turns. -/
def argloop (flag : Flags) : Nat → Bool → List Byte → Expansion α → Option (Expansion α)
  | 0, _, _, _ => none
  | _ + 1, _, [], e => some e
  | n + 1, firsteq, c :: p, e =>
    if c = ctlendvar then some e
    else if c = ctlesc then
      argloop flag n firsteq p.tail (e.put (if flag.quotes then [c, p.headD 0] else [p.headD 0]))
    else if c = ctlvar then do
      let (p, e) ← subst.evalvar p flag e
      argloop flag n firsteq p e
    else if c = ctlbackq ∨ c = ctlbackq ||| ctlquote then
      match e.argbackq with
      | [] => none
      | cmd :: rest => do
        let e ← subst.expbackq cmd (c &&& ctlquote ≠ 0) flag e
        argloop flag n firsteq p { e with argbackq := rest }
    else if c = ctlendari then do
      let e ← subst.expari flag e
      argloop flag n firsteq p e
    else if (c = 58 ∨ c = 61) ∧ flag.vartilde ∧ p.head? = some tilde ∧ ¬ (c = 61 ∧ ¬ firsteq) then
      let (p, e) := exptilde subst p flag (e.put [c])
      argloop flag n (firsteq && c ≠ 61) p e
    else argloop flag n firsteq p (e.put [c])

def argstr (n : Nat) (p : List Byte) (flag : Flags) (e : Expansion α) : Option (Expansion α) :=
  let (p, e) := if p.head? = some tilde ∧ (flag.tilde ∨ flag.vartilde) then exptilde subst p flag e
    else (p, e)
  argloop subst flag n true p e

def nonwhite (c : Byte) : Bool := c ≠ 32 && c ≠ 9 && c ≠ 10

/-- `skipifs` over the `n` bytes that are left of a region. -/
def skipifs (ifs s : List Byte) (seen : Bool) : (n p : Nat) → Nat
  | 0, p => p
  | n + 1, p =>
    if s.getD p 0 ∈ ifs then
      if nonwhite (s.getD p 0) then
        if seen then p else skipifs ifs s true n (p + 1)
      else skipifs ifs s seen n (p + 1)
    else p

/-- `makearg`: the text between two offsets. -/
def slice (s : List Byte) (start stop : Nat) : List Byte := (s.drop start).take (stop - start)

/-- The inner loop of `ifsbreakup`, with `n` bytes of the region left. -/
def splitRegion (ifs s : List Byte) (stop : Nat) :
    (n p start : Nat) → List (List Byte) → Nat × List (List Byte)
  | 0, _, start, args => (start, args)
  | n + 1, p, start, args =>
    if stop ≤ p then (start, args)
    else if s.getD p 0 = ctlesc then splitRegion ifs s stop n (p + 2) start args
    else if s.getD p 0 ∈ ifs then
      let q := skipifs ifs s (nonwhite (s.getD p 0)) (stop - (p + 1)) (p + 1)
      splitRegion ifs s stop n q q (args ++ [slice s start p])
    else splitRegion ifs s stop n (p + 1) start args

/-- One region: `nparam` is the number of positional parameters. The byte that ends the delimiters
is one of them to `strchr`. -/
def breakRegion (ifs : List Byte) (nparam : Nat) (s : List Byte) (x : Nat × List (List Byte))
    (region : Region) : Nat × List (List Byte) :=
  let ifs := (if region.nulonly then [] else ifs) ++ [0]
  let p := skipifs ifs s (nonwhite 0) (region.endoff - region.begoff) region.begoff
  let (start, args) := if p ≠ region.begoff then
    (p, if x.1 < region.begoff then x.2 ++ [slice s x.1 region.begoff] else x.2) else x
  let (start, args) := splitRegion ifs s region.endoff (region.endoff - p) p start args
  if region.nulonly ∧ 0 < nparam ∧ s.getD start 0 = 0 then (start, args ++ [[]]) else (start, args)

def ifsbreakup (ifs : List Byte) (nparam : Nat) (s : List Byte) (regions : List Region) :
    List (List Byte) :=
  match regions with
  | [] => [s]
  | regions =>
    let (start, args) := regions.foldl (breakRegion ifs nparam s) (0, [])
    if s.getD start 0 = 0 then args else args ++ [s.drop start]

def rmescapes : List Byte → List Byte
  | [] => []
  | [c] => if c = ctlesc then [] else [c]
  | c :: d :: l => if c = ctlesc then d :: rmescapes l else c :: rmescapes (d :: l)

/-- Whether a bracket in a pattern of `pmatch` is closed. -/
def closed : List Byte → Bool
  | [] => false
  | [_] => false
  | c :: d :: l =>
    if c = ctlesc then l.head? = some 93 || closed l
    else d = 93 || closed (d :: l)

/-- The loop over the members of a bracket; characters are compared as signed ones. -/
def members (chr : Byte) : Nat → (c : Byte) → (p : List Byte) → Bool → Bool × List Byte
  | 0, _, p, found => (found, p)
  | n + 1, c, p, found =>
    let (c, p) := if c = ctlesc then (p.headD 0, p.tail) else (c, p)
    let (found, p) :=
      if p.headD 0 = 45 ∧ p.tail.headD 0 ≠ 93 then
        let p := if p.tail.headD 0 = ctlesc then p.tail.tail else p.tail
        (found || (c.toInt8 ≤ chr.toInt8 && chr.toInt8 ≤ (p.headD 0).toInt8), p.tail)
      else (found || chr = c, p)
    if p.headD 0 = 93 then (found, p.tail) else members chr n (p.headD 0) p.tail found

/-- `pmatch`, with more turns than the pattern has bytes. -/
def pmatch : Nat → (pattern string : List Byte) → Bool
  | 0, _, _ => false
  | _ + 1, [], q => q.isEmpty
  | n + 1, c :: p, q =>
    if c = ctlesc then q.headD 0 = p.headD 0 && pmatch n p.tail q.tail
    else if c = 63 then !q.isEmpty && pmatch n p q.tail
    else if c = 42 then
      let d := p.headD 0
      let q := if d ∈ [ctlesc, 63, 42, 91] then q else q.dropWhile (· ≠ d)
      if d ∉ [ctlesc, 63, 42, 91] ∧ d ≠ 0 ∧ q = [] then false else q.tails.any (pmatch n p)
    else if c = 91 ∧ closed (if p.headD 0 = 33 then p.tail else p) then
      let invert := p.headD 0 = 33
      let p := if invert then p.tail else p
      match q with
      | [] => false
      | chr :: q =>
        let (found, p) := members chr (p.length + 1) (p.headD 0) p.tail false
        found ≠ invert && pmatch n p q
    else q.headD 0 = c && pmatch n p q.tail

/-- Whether a bracket in `expmeta` is closed before a slash. -/
def closedName : List Byte → Bool
  | [] => false
  | [_] => false
  | [c, d] => c ≠ slash && c ≠ ctlesc && d = 93
  | c :: d :: e :: l =>
    if c = ctlesc then d ≠ slash && (e = 93 || closedName (e :: l))
    else c ≠ slash && (d = 93 || closedName (d :: e :: l))

/-- The first loop of `expmeta`, for at most so many turns, from the offset `p`: `metaflag`, `start`
and where it stops. -/
def metascan (name : List Byte) : Nat → (p : Nat) → (metaflag : Bool) → (start : Nat) →
    Bool × Nat × Nat
  | 0, p, metaflag, start => (metaflag, start, p)
  | n + 1, p, metaflag, start =>
    let c := name.getD p 0
    let next := name.getD (p + 1) 0
    if c = 0 then (metaflag, start, p)
    else
      let found :=
        c = 42 || c = 63 ||
        (c = 91 && closedName (name.drop (if next = 33 then p + 2 else p + 1))) ||
        (c = 33 && next = 33 && (p = 0 || name.getD (p - 1) 0 = slash))
      let metaflag := metaflag || found
      let p := if c = ctlesc then p + 1 else p
      if name.getD p 0 = slash then
        if metaflag then (metaflag, start, p) else metascan name n (p + 1) metaflag (p + 1)
      else metascan name n (p + 1) metaflag start

variable (files : Files)

/-- `expmeta`, with `dir` what stands in `expdir` before `enddir`. -/
def expmeta : Nat → (dir name : List Byte) → List (List Byte)
  | 0, _, _ => []
  | n + 1, dir, name =>
    let (metaflag, start, endname) := metascan name (name.length + 1) 0 false 0
    if metaflag = false then
      if dir = [] ∨ files.stat (dir ++ rmescapes name) then [dir ++ rmescapes name] else []
    else
      let dir := dir ++ rmescapes (name.take start)
      let path := if dir = [] then [46] else if dir = [slash] then [slash] else dir.dropLast
      match files.entries path with
      | none => []
      | some entries =>
        let pattern := slice name start endname
        let atend := name.length ≤ endname
        let matchdot := pattern.head? = some 46 || [ctlesc, 46].isPrefixOf pattern
        entries.flatMap fun d =>
          if d.head? = some 46 ∧ ¬ matchdot then []
          else if pmatch (pattern.length + 1) pattern d then
            if atend then [dir ++ d] else expmeta n (dir ++ d ++ [slash]) (name.drop (endname + 1))
          else []

/-- `strcmp(a, b) <= 0`. -/
def strcmpLe : List Byte → List Byte → Bool
  | [], _ => true
  | _ :: _, [] => false
  | a :: as, b :: bs => if a = b then strcmpLe as bs else a < b

/-- One argument of `expandmeta`; `expsort` is a merge sort that keeps the order of equals. -/
def expandmeta (fflag : Bool) (text : List Byte) : List (List Byte) :=
  if fflag ∨ text.all (· ∉ ([42, 63, 91, 33] : List Byte)) then [rmescapes text]
  else
    match expmeta files (text.length + 1) [] text with
    | [] => [rmescapes text]
    | names => names.mergeSort strcmpLe

/-- `expandarg` with an argument list, for a text with at most `n` turns of `argstr`. -/
def expandarg (ifs : List Byte) (nparam : Nat) (fflag : Bool) (n : Nat) (text : List Byte)
    (backquotelist : List α) (flag : Flags) : Option (List (List Byte)) := do
  let e ← argstr subst n text flag ⟨[], [], backquotelist⟩
  if flag.full then
    return (ifsbreakup ifs nparam e.dest e.regions).flatMap (expandmeta files fflag)
  else if flag.redir then return [rmescapes e.dest]
  else return [e.dest]

end

end Bsdi.Sh
