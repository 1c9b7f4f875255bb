import Bsdi.Regex.Strip
import Mathlib.Logic.Function.Iterate

/-!
# The matching engine

`engine.c` over a representation of state sets. Positions are offsets from `string`, a null
pointer is `none`. Assertions are compiled out; where the code would go on from a null pointer or
behind `stop`, there is no result.
-/

namespace Bsdi.Regex

/-- `struct match`: what does not change during a call. -/
structure Env where
  g : Guts
  text : Nat → Byte
  beginp : Nat
  endp : Nat
  /-- `REG_NOTBOL`. -/
  notbol : Bool
  /-- `REG_NOTEOL`. -/
  noteol : Bool

structure Regmatch where
  so : Int
  eo : Int
  deriving DecidableEq, Repr

def isword (c : Byte) : Bool :=
  (48 ≤ c && c ≤ 57) || (65 ≤ c && c ≤ 90) || (97 ≤ c && c ≤ 122) || c == 95

def nl : Byte := 10

namespace Env

variable (m : Env)

/-- The character before `p`, or `OUT`. -/
def before (p : Nat) : Option Byte := if p = m.beginp then none else some (m.text (p - 1))

/-- The character at `p`, or `OUT`. -/
def char (p : Nat) : Option Byte := if p = m.endp then none else some (m.text p)

/-- A line starts between `lastc` and the next character. -/
def startsLine (lastc : Option Byte) : Bool :=
  match lastc with
  | none => !m.notbol
  | some c => c == nl && m.g.newline

/-- A line ends before `c`. -/
def endsLine (c : Option Byte) : Bool :=
  match c with
  | none => !m.noteol
  | some c => c == nl && m.g.newline

/-- `flagch` and `i` for the ends of lines between `lastc` and `c`. -/
def lineFlag (lastc c : Option Byte) : Option Code × Nat :=
  match m.startsLine lastc, m.endsLine c with
  | false, false => (none, 0)
  | true, false => (some .bol, m.g.nbol)
  | false, true => (some .eol, m.g.neol)
  | true, true => (some .boleol, m.g.nbol + m.g.neol)

end Env

/-- `flagch` after a look for a word boundary between `lastc` and `c`. -/
def wordFlag (flagch : Option Code) (lastc c : Option Byte) : Option Code :=
  let flagch :=
    if (flagch = some .bol || lastc.any (!isword ·)) && c.any isword then some .bow else flagch
  if lastc.any isword && (flagch = some .eol || c.any (!isword ·)) then some .eow else flagch

variable {σ : Type}

def lineSteps (rep : Rep σ) (g : Guts) (startst stopst : Nat) : Option Code × Nat → σ → σ
  | (some flagch, i), st => (stepSame rep g startst stopst flagch)^[i] st
  | (none, _), st => st

def wordStep (rep : Rep σ) (g : Guts) (startst stopst : Nat) : Option Code → σ → σ
  | some .bow, st => stepSame rep g startst stopst .bow st
  | some .eow, st => stepSame rep g startst stopst .eow st
  | _, st => st

/-- The steps of `fast` and `slow` over what lies between two characters. -/
def between (rep : Rep σ) (m : Env) (startst stopst : Nat) (lastc c : Option Byte) (st : σ) : σ :=
  let line := m.lineFlag lastc c
  let st := lineSteps rep m.g startst stopst line st
  wordStep rep m.g startst stopst (wordFlag line.1 lastc c) st

def initial (rep : Rep σ) (g : Guts) (startst stopst : Nat) : σ :=
  stepSame rep g startst stopst .nothing (rep.set1 rep.clear startst)

/-- The loop of `fast`, from the set `st` at `p`. -/
def fastLoop (rep : Rep σ) (m : Env) (stop startst stopst : Nat) (fresh : σ) :
    Nat → Nat → Option Byte → σ → Nat → Nat × Option Nat
  | 0, _, _, _, coldp => (coldp, none)
  | fuel + 1, p, lastc, st, coldp =>
    let c := m.char p
    let coldp := if rep.eq st fresh then p else coldp
    let st := between rep m startst stopst lastc c st
    if rep.isset st stopst then (coldp, some (p + 1))
    else if p = stop then (coldp, none)
    else
      let st := step rep m.g startst stopst st (.char (m.text p)) fresh
      fastLoop rep m stop startst stopst fresh fuel (p + 1) c st coldp

/-- `fast`: `coldp`, and where a tentative match ended. -/
def fast (rep : Rep σ) (m : Env) (start stop startst stopst : Nat) : Nat × Option Nat :=
  let st := initial rep m.g startst stopst
  fastLoop rep m stop startst stopst st (stop - start + 1) start (m.before start) st start

def slowLoop (rep : Rep σ) (m : Env) (stop startst stopst : Nat) :
    Nat → Nat → Option Byte → σ → Option Nat → Option Nat
  | 0, _, _, _, matchp => matchp
  | fuel + 1, p, lastc, st, matchp =>
    let c := m.char p
    let st := between rep m startst stopst lastc c st
    let matchp := if rep.isset st stopst then some p else matchp
    if rep.eq st rep.clear || p = stop then matchp
    else
      let st := step rep m.g startst stopst st (.char (m.text p)) rep.clear
      slowLoop rep m stop startst stopst fuel (p + 1) c st matchp

/-- `slow`: where the longest match ended. -/
def slow (rep : Rep σ) (m : Env) (start stop startst stopst : Nat) : Option Nat :=
  slowLoop rep m stop startst stopst (stop - start + 1) start (m.before start)
    (initial rep m.g startst stopst) none

/-- `slow` on a given text. -/
abbrev Slow := Nat → Nat → Nat → Nat → Option Nat

/-- The longest match of the part `[ss, es)` from `sp` on after which the rest can match the
rest. -/
def howLong (slow : Slow) (stop ss es stopst sp : Nat) : Nat → Nat → Option Nat
  | 0, _ => none
  | fuel + 1, stp => do
    let rest ← slow sp stp ss es
    if slow rest stop es stopst = some stop then some rest
    else if rest ≤ sp then none
    else howLong slow stop ss es stopst sp fuel (rest - 1)

def lastPass (slow : Slow) (rest ssub esub : Nat) : Nat → Nat → Nat → Option (Nat × Nat)
  | 0, _, _ => none
  | fuel + 1, oldssp, ssp =>
    match slow ssp rest ssub esub with
    | none => some (oldssp, ssp)
    | some sep => if sep = ssp then some (ssp, sep) else lastPass slow rest ssub esub fuel ssp sep

/-- The branch behind the one that ends in the `OOR1` at `esub`: an `OOR2`, and the branch up to
the next `OOR1` or the `O_CH`. -/
def nextBranch (g : Guts) (esub : Nat) : Option (Nat × Nat) :=
  match g.op (esub + 1) with
  | .oor2 n =>
    match g.op (esub + 1 + n) with
    | .oor2 _ => some (esub + 2, esub + n)
    | _ => some (esub + 2, esub + 1 + n)
  | _ => none

/-- The first branch of a choice that matches all of `[sp, rest)`. -/
def firstBranch (slow : Slow) (g : Guts) (sp rest : Nat) :
    Nat → Nat → Nat → Option (Nat × Nat)
  | 0, _, _ => none
  | fuel + 1, ssub, esub =>
    if slow sp rest ssub esub = some rest then some (ssub, esub)
    else
      match nextBranch g esub with
      | some (ssub, esub) => firstBranch slow g sp rest fuel ssub esub
      | none => none

/-- The end of the part of the strip that starts at `ss`. -/
def partEnd (g : Guts) (ss : Nat) : Option Nat :=
  match g.op ss with
  | .oplus_ n | .oquest_ n => some (ss + n + 1)
  | .och_ n => (findCh g g.nstates (ss + n)).map (· + 1)
  | _ => some (ss + 1)

/-- `m->pmatch`. -/
abbrev Pmatch := Nat → Regmatch

def Pmatch.setSo (pm : Pmatch) (i : Nat) (so : Int) : Pmatch :=
  Function.update pm i { pm i with so := so }

def Pmatch.setEo (pm : Pmatch) (i : Nat) (eo : Int) : Pmatch :=
  Function.update pm i { pm i with eo := eo }

/-- What the part `[ss, es)` matched: where it ended, and the groups in it. `inner` dissects what a
part has inside. -/
def dissectPart (slow : Slow) (g : Guts) (inner : Nat → Nat → Nat → Nat → Pmatch → Option Pmatch)
    (stop ss es stopst sp : Nat) (pm : Pmatch) : Option (Nat × Pmatch) :=
  match g.op ss with
  | .ochar _ | .oany | .oanyof _ => some (sp + 1, pm)
  | .oquest_ _ => do
    let rest ← howLong slow stop ss es stopst sp (stop + 1) stop
    if slow sp rest (ss + 1) (es - 1) = none then some (rest, pm)
    else (inner rest (ss + 1) (es - 1) sp pm).map (rest, ·)
  | .oplus_ _ => do
    let rest ← howLong slow stop ss es stopst sp (stop + 1) stop
    let (ssp, sep) ← lastPass slow rest (ss + 1) (es - 1) (stop + 2) sp sp
    (inner sep (ss + 1) (es - 1) ssp pm).map (rest, ·)
  | .och_ n => do
    let rest ← howLong slow stop ss es stopst sp (stop + 1) stop
    let (ssub, esub) ← firstBranch slow g sp rest g.nstates (ss + 1) (ss + n - 1)
    (inner rest ssub esub sp pm).map (rest, ·)
  | .olparen i => some (sp, pm.setSo i sp)
  | .orparen i => some (sp, pm.setEo i sp)
  | _ => some (sp, pm)

/-- `dissect` on the parts of the strip from `ss` to `stopst`, from `sp` on. The bound counts the
parts and the levels. -/
def dissect (slow : Slow) (g : Guts) : Nat → Nat → Nat → Nat → Nat → Pmatch → Option Pmatch
  | 0, _, _, _, _, _ => none
  | fuel + 1, stop, ss, stopst, sp, pm =>
    if stopst ≤ ss then some pm
    else do
      let es ← partEnd g ss
      let (sp, pm) ← dissectPart slow g (dissect slow g fuel) stop ss es stopst sp pm
      dissect slow g fuel stop es stopst sp pm

/-- What the easy part of `backref` comes to: a mismatch, the end of the part, or an operator that
needs a choice. -/
inductive Easy
  | fail
  | done (sp : Nat)
  | hard (ss sp : Nat)

/-- The character before `sp` is a newline that counts. At the start of the memory this is the
first character. -/
def Env.afterNewline (m : Env) (sp : Nat) : Bool :=
  sp < m.endp && m.text (sp - 1) == nl && m.g.newline

/-- The character at `sp` is a newline that counts. -/
def Env.atNewline (m : Env) (sp : Nat) : Bool := sp < m.endp && m.text sp == nl && m.g.newline

/-- The tests of `backref` for the four anchors. -/
def Env.anchored (m : Env) (sp : Nat) : Sop → Bool
  | .obol => (sp == m.beginp && !m.notbol) || m.afterNewline sp
  | .oeol => (sp == m.endp && !m.noteol) || m.atNewline sp
  | .obow => ((sp == m.beginp && !m.notbol) || m.afterNewline sp ||
      (m.beginp < sp && !isword (m.text (sp - 1)))) && (sp < m.endp && isword (m.text sp))
  | .oeow => ((sp == m.endp && !m.noteol) || m.atNewline sp ||
      (sp < m.endp && !isword (m.text sp))) && (m.beginp < sp && isword (m.text (sp - 1)))
  | _ => true

/-- The first loop of `backref`. -/
def backEasy (m : Env) (stop stopst : Nat) : Nat → Nat → Nat → Easy
  | 0, _, _ => .fail
  | fuel + 1, ss, sp =>
    if stopst ≤ ss then if sp = stop then .done sp else .fail
    else
      match m.g.op ss with
      | .ochar c =>
        if sp ≠ stop ∧ m.text sp = c then backEasy m stop stopst fuel (ss + 1) (sp + 1) else .fail
      | .oany => if sp ≠ stop then backEasy m stop stopst fuel (ss + 1) (sp + 1) else .fail
      | .oanyof cs =>
        if sp ≠ stop ∧ m.g.sets cs (m.text sp) then backEasy m stop stopst fuel (ss + 1) (sp + 1)
        else .fail
      | .obol | .oeol | .obow | .oeow =>
        if m.anchored sp (m.g.op ss) then backEasy m stop stopst fuel (ss + 1) sp else .fail
      | .o_quest _ => backEasy m stop stopst fuel (ss + 1) sp
      | .oor1 _ =>
        match findCh m.g m.g.nstates (ss + 1) with
        | some e => backEasy m stop stopst fuel (e + 1) sp
        | none => .fail
      | _ => .hard ss sp

/-- `m->pmatch` and `m->lastpos`. -/
structure Saved where
  pm : Pmatch
  lastpos : Nat → Nat

/-- Where the `O_BACK` of the group `i` stands, from `ss` on. -/
def findBack (g : Guts) (i : Nat) : Nat → Nat → Option Nat
  | 0, _ => none
  | fuel + 1, ss => if g.op ss = .o_back i then some ss else findBack g i fuel (ss + 1)

/-- `memcmp(sp, ssp, len) == 0`. -/
def sameText (m : Env) (sp ssp len : Nat) : Bool :=
  (List.range len).all fun k => m.text (sp + k) == m.text (ssp + k)

/-- `backref`: the end of the match or `NULL`, and the arrays. -/
def backref (m : Env) (stop : Nat) :
    Nat → Nat → Nat → Nat → Nat → Saved → Option (Option Nat × Saved)
  | 0, _, _, _, _, _ => none
  | fuel + 1, start, startst, stopst, lev, a =>
    match backEasy m stop stopst (m.g.nstates + 1) startst start with
    | .fail => some (none, a)
    | .done sp => some (some sp, a)
    | .hard ss sp =>
      match m.g.op ss with
      | .oback_ i =>
        if (a.pm i).eo = -1 then some (none, a)
        else
          let len := ((a.pm i).eo - (a.pm i).so).toNat
          if stop < sp + len then some (none, a)
          else if sameText m sp (a.pm i).so.toNat len then
            do
              let ss ← findBack m.g i m.g.nstates ss
              backref m stop fuel (sp + len) (ss + 1) stopst lev a
          else some (none, a)
      | .oquest_ n => do
        let (dp, a) ← backref m stop fuel sp (ss + 1) stopst lev a
        if dp ≠ none then some (dp, a)
        else backref m stop fuel sp (ss + n + 1) stopst lev a
      | .oplus_ _ =>
        backref m stop fuel sp (ss + 1) stopst (lev + 1)
          { a with lastpos := Function.update a.lastpos (lev + 1) sp }
      | .o_plus n =>
        if sp = a.lastpos lev then backref m stop fuel sp (ss + 1) stopst (lev - 1) a
        else do
          let (dp, a) ← backref m stop fuel sp (ss - n + 1) stopst lev
            { a with lastpos := Function.update a.lastpos lev sp }
          if dp ≠ none then some (dp, a)
          else backref m stop fuel sp (ss + 1) stopst (lev - 1) a
      | .och_ n =>
        -- the branches of the choice, one after another
        let rec branches : Nat → Nat → Nat → Saved → Option (Option Nat × Saved)
          | 0, _, _, _ => none
          | k + 1, ssub, esub, a => do
            let (dp, a) ← backref m stop fuel sp ssub esub lev a
            if dp ≠ none then some (dp, a)
            else
              match m.g.op esub with
              | .o_ch _ => some (none, a)
              | _ =>
                match nextBranch m.g esub with
                | some (ssub, esub) => branches k ssub esub a
                | none => none
        branches m.g.nstates (ss + 1) (ss + n - 1) a
      | .olparen i => do
        let (dp, a') ← backref m stop fuel sp (ss + 1) stopst lev
          { a with pm := Pmatch.setSo a.pm i sp }
        if dp ≠ none then some (dp, a')
        else some (none, { a' with pm := Pmatch.setSo a'.pm i (a.pm i).so })
      | .orparen i => do
        let (dp, a') ← backref m stop fuel sp (ss + 1) stopst lev
          { a with pm := Pmatch.setEo a.pm i sp }
        if dp ≠ none then some (dp, a')
        else some (none, { a' with pm := Pmatch.setEo a'.pm i (a.pm i).eo })
      | _ => none

/-- What `matcher` returns. -/
inductive Status
  | ok
  | nomatch
  | invarg
  deriving DecidableEq, Repr

/-- A call of `regexec`. -/
structure Call where
  /-- The memory from `string` on. -/
  text : Nat → Byte
  /-- `strlen(string)`. -/
  len : Nat
  nmatch : Nat
  /-- `pmatch[0]` when `REG_STARTEND` is set. -/
  startend : Option (Nat × Nat)
  notbol : Bool
  noteol : Bool
  backr : Bool

/-- The prescreening: `must` lies in the string. -/
def hasMust (text : Nat → Byte) (start stop : Nat) (must : List Byte) : Bool :=
  (List.range (stop - start)).any fun k =>
    start + k + must.length ≤ stop &&
      (List.range must.length).all fun j => text (start + k + j) == must.getD j 0

/-- The first position from `coldp` on where `slow` finds a match, and its end. -/
def whereStarts (slow : Slow) (stop gf gl : Nat) : Nat → Nat → Option (Nat × Nat)
  | 0, _ => none
  | fuel + 1, coldp =>
    match slow coldp stop gf gl with
    | some endp => some (coldp, endp)
    | none => if stop ≤ coldp then none else whereStarts slow stop gf gl fuel (coldp + 1)

/-- The loop that backs off to shorter matches until `backref` agrees: the end and the groups, or
defeat. -/
def backOff (slow : Slow) (m : Env) (turns gf gl coldp : Nat) :
    Nat → Nat → Saved → Option (Option (Nat × Pmatch) × Saved)
  | 0, _, _ => none
  | fuel + 1, endp, a =>
    if endp ≤ coldp then some (none, a)
    else
      match slow coldp (endp - 1) gf gl with
      | none => some (none, a)
      | some endp => do
        let (dp, a) ← backref m endp turns coldp gf gl 0 a
        if dp ≠ none then some (some (endp, a.pm), a)
        else backOff slow m turns gf gl coldp fuel endp a

/-- `pmatch` as it is filled in at the end. -/
def fill (g : Guts) (nmatch coldp endp : Nat) (pm : Pmatch) : List Regmatch :=
  (List.range nmatch).map fun i =>
    if i = 0 then ⟨coldp, endp⟩ else if i ≤ g.nsub then pm i else ⟨-1, -1⟩

def unset : Pmatch := fun _ => ⟨-1, -1⟩

/-- The outer loop of `matcher`, from `start` on. `backr` is `REG_BACKR`. -/
def matchLoop (fast : Nat → Nat → Nat → Nat → Nat × Option Nat) (slow : Slow) (m : Env)
    (backr : Bool) (nmatch stop : Nat) : Nat → Nat → (Nat → Nat) → Option (Status × List Regmatch)
  | 0, _, _ => none
  | fuel + 1, start, lastpos =>
    let gf := m.g.firststate + 1
    let gl := m.g.laststate
    let turns := (stop + 2) * (m.g.nplus + 2) * (m.g.nstates + 1)
    let (coldp, hit) := fast start stop gf gl
    if hit = none then some (.nomatch, [])
    else if nmatch = 0 ∧ !m.g.backrefs then some (.ok, [])
    else
      match whereStarts slow stop gf gl (stop + 2) coldp with
      | none => none
      | some (coldp, endp) =>
        if nmatch = 1 ∧ !m.g.backrefs then some (.ok, fill m.g nmatch coldp endp unset)
        else if !m.g.backrefs && !backr then
          (dissect slow m.g ((m.g.nstates + 1) * (m.g.nstates + 1)) endp gf gl coldp unset).map
            fun pm => (.ok, fill m.g nmatch coldp endp pm)
        else
          match backref m endp turns coldp gf gl 0 ⟨unset, lastpos⟩ with
          | none => none
          | some (some _, a) => some (.ok, fill m.g nmatch coldp endp a.pm)
          | some (none, a) =>
            match backOff slow m turns gf gl coldp (stop + 2) endp a with
            | none => none
            | some (some (endp, pm), _) => some (.ok, fill m.g nmatch coldp endp pm)
            | some (none, a) =>
              if stop ≤ coldp then none
              else matchLoop fast slow m backr nmatch stop fuel (coldp + 1) a.lastpos

def Call.range (c : Call) : Nat × Nat := c.startend.getD (0, c.len)

def Call.env (g : Guts) (c : Call) : Env :=
  ⟨g, c.text, c.range.1, c.range.2, c.notbol, c.noteol⟩

/-- `matcher` over a representation of state sets: the status and the entries of `pmatch` that
are written. -/
def matcher (rep : Rep σ) (g : Guts) (c : Call) : Option (Status × List Regmatch) :=
  let nmatch := if g.nosub then 0 else c.nmatch
  let start := c.range.1
  let stop := c.range.2
  let m := c.env g
  if stop < start then some (.invarg, [])
  else if g.must.any fun must => !hasMust c.text start stop must then some (.nomatch, [])
  else matchLoop (fast rep m) (slow rep m) m c.backr nmatch stop (stop + 2) start fun _ => 0

/-- States as the bits of a `long`. -/
def smatcher (g : Guts) (c : Call) : Option (Status × List Regmatch) := matcher small g c

def lmatcher (g : Guts) (c : Call) : Option (Status × List Regmatch) :=
  matcher (large g.nstates) g c

/-- `regexec`, which drops the flags for debugging. -/
def regexec (g : Guts) (c : Call) : Option (Status × List Regmatch) :=
  let c := { c with backr := false }
  if g.nstates ≤ 32 then smatcher g c else lmatcher g c

end Bsdi.Regex
