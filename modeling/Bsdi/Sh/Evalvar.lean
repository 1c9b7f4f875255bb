import Bsdi.Sh.Expand

/-!
# Parameters

`evalvar`, `varisset`, `varvalue` and `expbackq` of `expand.c` with `argstr` around them. Variables,
positional parameters and the commands that have been run are the state. What a command does, home
directories and arithmetic are parameters.

A function is `none` where it runs out of turns or reads behind the end of the text or of
`argbackq`, and an error where the shell gives up, with the state it leaves and its message.
-/

namespace Bsdi.Sh.Param

def vstype : Byte := 7
def vsnul : Byte := 0x20
def vsquote : Byte := 0x40
def vsnormal : Byte := 1
def vsminus : Byte := 2
def vsplus : Byte := 3
def vsquestion : Byte := 4
def vsassign : Byte := 5

/-- The variables, why one of them cannot be set (it is read only, or the shell is restricted), the
positional parameters with `arg0`, the other special parameters, and the `-u` option. -/
structure Env where
  vars : List Byte → Option (List Byte)
  refused : List Byte → Option (List Byte)
  arg0 : List Byte
  params : List (List Byte)
  special : Byte → Option (List Byte)
  letters : ∀ c v, special c = some v → ∀ b ∈ v, isInName b = true
  uflag : Bool

structure State (α : Type) extends Expansion α where
  env : Env
  ran : List α

abbrev Res (α β : Type) := Option (Except (State α × List Byte) β)

def Res.andThen {α β γ : Type} (x : Res α β) (f : β → Res α γ) : Res α γ :=
  match x with
  | none => none
  | some (.error e) => some (.error e)
  | some (.ok b) => f b

structure World (α : Type) where
  evalbackcmd : α → Env → Except (List Byte) (List Byte × Env)
  expari : Flags → State α → Res α (State α)
  home : List Byte → Option (List Byte)

/-- What `exptilde` asks for. -/
def World.homes {α : Type} (w : World α) : Substitutions α :=
  ⟨fun _ _ _ => none, fun _ _ _ _ => none, fun _ _ => none, w.home⟩

def message (s : String) : List Byte := s.toList.map fun c => c.toNat.toUInt8

def Env.setvar (name value : List Byte) (env : Env) : Except (List Byte) Env :=
  if ¬ (isName (name.headD 0) ∧ name.all isInName) then
    .error (name ++ message ": bad variable name")
  else
    match env.refused name with
    | some m => .error m
    | none => .ok { env with vars := fun v => if v = name then some value else env.vars v }

section

variable {α : Type}

def State.put (s : State α) (l : List Byte) : State α := { s with dest := s.dest ++ l }

def State.recordregion (s : State α) (start : Nat) (nulonly : Bool) : State α :=
  { s with regions := s.regions ++ [⟨start, s.dest.length, nulonly⟩] }

/-- Bytes with `CTLESC` before those that `syntax` has as control bytes. -/
def escaped (quotes : Bool) (syntax' : Table) (l : List Byte) : List Byte :=
  l.flatMap fun c => if quotes && syntax'.entry c = .cctl then [ctlesc, c] else [c]

def quoteTable (quoted : Bool) : Table := if quoted then .dq else .base

def expbackq (w : World α) (cmd : α) (quoted : Bool) (flag : Flags) (s : State α) :
    Except (State α × List Byte) (State α) :=
  match w.evalbackcmd cmd s.env with
  | .error m => .error ({ s with ran := s.ran ++ [cmd] }, m)
  | .ok (output, env) =>
    let text := escaped flag.quotes (quoteTable quoted) (output.filter (· ≠ 0))
    let text := if output.getLast? = some newline then text.dropLast else text
    let s' : State α := { s with dest := s.dest ++ text, env := env, ran := s.ran ++ [cmd] }
    .ok (if quoted then s' else s'.recordregion s.dest.length false)

def varisset (name : Byte) (env : Env) : Bool :=
  if name = 33 then (env.special name).isSome
  else if name = 64 ∨ name = 42 then env.params ≠ []
  else if 49 ≤ name ∧ name ≤ 57 then name.toNat - 48 ≤ env.params.length
  else true

/-- `varvalue`: what it adds. -/
def varvalue (name : Byte) (quoted split : Bool) (env : Env) : List Byte :=
  let strtodest := escaped split (quoteTable quoted)
  if name = 64 ∨ name = 42 then
    [if name = 64 ∧ split then 0 else 32].intercalate (env.params.map strtodest)
  else if name = 48 then strtodest env.arg0
  else if 49 ≤ name ∧ name ≤ 57 then strtodest (env.params.getD (name.toNat - 49) [])
  else (env.special name).getD []

/-- Whether a parameter counts as set: `nul` is `VSNUL`. -/
def isset (var : List Byte) (nul : Bool) (env : Env) : Bool :=
  if isName (var.headD 0) then
    match env.vars var with
    | none => false
    | some val => !(nul && val = [])
  else varisset (var.headD 0) env

def inserted (var : List Byte) (quoted : Bool) (flag : Flags) (env : Env) : List Byte :=
  if isName (var.headD 0) then
    escaped flag.quotes (quoteTable quoted) ((env.vars var).getD [])
  else varvalue (var.headD 0) quoted flag.full env

/-- From `startloc = ...` to `recordregion`. -/
def putvalue (var : List Byte) (subtype : Byte) (quoted set : Bool) (flag : Flags) (s : State α) :
    State α :=
  let s' := if set ∧ subtype ≠ vsplus then s.put (inserted var quoted flag s.env) else s
  let set := if subtype = vsplus then !set else set
  if (¬ quoted ∨ (var.headD 0 = 64 ∧ s.env.params.length ≠ 1)) ∧ (set ∨ subtype = vsnormal) then
    s'.recordregion s.dest.length quoted
  else s'

/-- The loop that skips to the end of the alternative. -/
def skip (scanned : Bool) : Nat → List Byte → List α → Option (List Byte × List α)
  | _, [], _ => none
  | nesting, c :: p, argbackq =>
    if c = ctlesc then
      match p with
      | [] => none
      | _ :: p => skip scanned nesting p argbackq
    else if c = ctlbackq ∨ c = ctlbackq ||| ctlquote then
      if scanned then skip scanned nesting p argbackq
      else
        match argbackq with
        | [] => none
        | _ :: argbackq => skip scanned nesting p argbackq
    else if c = ctlvar then
      match p with
      | [] => none
      | f :: p => skip scanned (if f &&& vstype ≠ vsnormal then nesting + 1 else nesting) p argbackq
    else if c = ctlendvar then
      if nesting = 1 then some (p, argbackq) else skip scanned (nesting - 1) p argbackq
    else skip scanned nesting p argbackq

def finish (subtype : Byte) (scanned : Bool) (p : List Byte) (s : State α) :
    Res α (List Byte × State α) :=
  if subtype = vsnormal then some (.ok (p, s))
  else
    match skip scanned 1 p s.argbackq with
    | none => none
    | some (p, argbackq) => some (.ok (p, { s with argbackq := argbackq }))

def Flags.none : Flags := ⟨false, false, false, false, false⟩

/-- The messages of the `-u` option and of `${var?}`. -/
def unboundMessage (var : List Byte) : List Byte :=
  message "variable \x60" ++ var ++ message "' unset"

def unsetMessage (var : List Byte) (nul : Bool) : List Byte :=
  var ++ message ": parameter " ++ (if nul then message "null or " else []) ++ message "not set"

/-- `evalvar(p, flag)`, with `argstr` for the words. After an assignment it starts again with
`VSNUL` off, and the variable is set. -/
def evalvarStep (argstr : List Byte → Flags → State α → Res α (State α)) (p : List Byte)
    (flag : Flags) (s : State α) : Res α (List Byte × State α) :=
  let varflags := p.headD 0
  let subtype := varflags &&& vstype
  let nul := varflags &&& vsnul != 0
  let quoted := varflags &&& vsquote != 0
  let var := p.tail.takeWhile (· ≠ 61)
  let p := (p.tail.dropWhile (· ≠ 61)).tail
  let set := isset var nul s.env
  if s.env.uflag ∧ ¬ set ∧ subtype = vsnormal then
    some (.error (s, unboundMessage var))
  else
    let s' := putvalue var subtype quoted set flag s
    if (if subtype = vsplus then !set else set) ∨ subtype = vsnormal then finish subtype false p s'
    else if subtype = vsplus ∨ subtype = vsminus then
      Res.andThen (argstr p flag s') (finish subtype true p)
    else
      Res.andThen (argstr p Flags.none s') fun e =>
        let startp := e.dest.drop s.dest.length
        if subtype = vsassign then
          match e.env.setvar var startp with
          | .error m => some (.error (e, m))
          | .ok env =>
            let s : State α :=
              { e with dest := e.dest.take s.dest.length, env := env, argbackq := s.argbackq }
            finish subtype true p (putvalue var subtype quoted (isset var false env) flag s)
        else if p.head? = some ctlendvar then some (.error (e, unsetMessage var nul))
        else some (.error (e, startp))

/-- The loop of `argstr`, for at most so many turns. -/
def argloop (w : World α)
    (evalvar : List Byte → Flags → State α → Res α (List Byte × State α)) (flag : Flags) :
    Nat → Bool → List Byte → State α → Res α (State α)
  | 0, _, _, _ => none
  | _ + 1, _, [], s => some (.ok s)
  | n + 1, firsteq, c :: p, s =>
    if c = ctlendvar then some (.ok s)
    else if c = ctlesc then
      argloop w evalvar flag n firsteq p.tail
        (s.put (if flag.quotes then [c, p.headD 0] else [p.headD 0]))
    else if c = ctlvar then
      Res.andThen (evalvar p flag s) fun r => argloop w evalvar flag n firsteq r.1 r.2
    else if c = ctlbackq ∨ c = ctlbackq ||| ctlquote then
      match s.argbackq with
      | [] => none
      | cmd :: rest =>
        Res.andThen (some (expbackq w cmd (c &&& ctlquote != 0) flag s)) fun s =>
          argloop w evalvar flag n firsteq p { s with argbackq := rest }
    else if c = ctlendari then
      Res.andThen (w.expari flag s) fun s => argloop w evalvar flag n firsteq p s
    else if (c = 58 ∨ c = 61) ∧ flag.vartilde ∧ p.head? = some tilde ∧ ¬ (c = 61 ∧ ¬ firsteq) then
      let r := exptilde w.homes p flag (s.put [c]).toExpansion
      argloop w evalvar flag n (firsteq && c ≠ 61) r.1 { s with toExpansion := r.2 }
    else argloop w evalvar flag n firsteq p (s.put [c])

def argstr (w : World α)
    (evalvar : List Byte → Flags → State α → Res α (List Byte × State α)) (n : Nat) (p : List Byte)
    (flag : Flags) (s : State α) : Res α (State α) :=
  if p.head? = some tilde ∧ (flag.tilde ∨ flag.vartilde) then
    let r := exptilde w.homes p flag s.toExpansion
    argloop w evalvar flag n true r.1 { s with toExpansion := r.2 }
  else argloop w evalvar flag n true p s

/-- `evalvar`, for words nested at most so deep and with at most so many turns each. -/
def evalvar (w : World α) : Nat → List Byte → Flags → State α → Res α (List Byte × State α)
  | 0, _, _, _ => none
  | n + 1, p, flag, s => evalvarStep (argstr w (evalvar w n) n) p flag s

/-- `argstr` with everything under it. -/
def expand (w : World α) (n : Nat) : List Byte → Flags → State α → Res α (State α) :=
  argstr w (evalvar w n) n

end

end Bsdi.Sh.Param
