import Bsdi.Telnet.Options

/-!
# Input from the network

`telrcv` of `state.c`, which sorts the bytes read from the network into characters for the pty,
commands and suboptions. The rest of the server (the terminal, the options, the output to the
network) is a state that the functions it calls act on.
-/

namespace Bsdi.Telnet

/-- The telnet commands of `arpa/telnet.h` that are not about options. -/
def IAC : UInt8 := 255

def SB : UInt8 := 250

def EL : UInt8 := 248

def EC : UInt8 := 247

def AYT : UInt8 := 246

def AO : UInt8 := 245

def IP : UInt8 := 244

def BREAK : UInt8 := 243

def DM : UInt8 := 242

def SE : UInt8 := 240

def EOR : UInt8 := 239

def ABORT : UInt8 := 238

def SUSP : UInt8 := 237

def xEOF : UInt8 := 236

def Cmd.code : Cmd → UInt8
  | .will => 251
  | .wont => 252
  | .doopt => 253
  | .dont => 254

/-- The states of `telrcv`. -/
inductive Ts
  | data
  | iac
  | cr
  | sb
  | se
  | option (cmd : Cmd)
  deriving DecidableEq

/-- What a function does that may flush the pty buffer and then put a character into it. -/
structure Answer (E : Type) where
  env : E
  /-- Whether a buffer with so many bytes is empty afterwards. -/
  flushed : Nat → Bool
  placed : Option UInt8

/-- The functions `telrcv` calls, and the variables it looks at. -/
structure Server (E : Type) where
  /-- `his_state_is_wont(TELOPT_BINARY)`. -/
  wontBinary : E → Bool
  linemode : E → Bool
  tty_iscrnl : E → Bool
  /-- `his_state_is_will(TELOPT_EOR)`. -/
  willEor : E → Bool
  interrupt : E → Answer E
  sendbrk : E → Answer E
  recv_ayt : E → Answer E
  doeof : E → Answer E
  sendsusp : E → Answer E
  ptyflush : E → E
  /-- Whether `ptyflush` gets rid of that many bytes. -/
  accepts : E → Nat → Bool
  init_termbuf : E → E
  /-- The characters of `slctab` for abort output, erase character and erase line, unless they are
  disabled. -/
  slcAo : E → Option UInt8
  slcEc : E → Option UInt8
  slcEl : E → Option UInt8
  /-- `netclear`, and a data mark to the network. -/
  sendMark : E → E
  /-- A data mark has come in. -/
  gotMark : E → E
  suboption : List UInt8 → E → E
  /-- `willoption`, `wontoption`, `dooption` and `dontoption`. -/
  option : Cmd → UInt8 → E → E

/-- `BUFSIZ`, and the size of `subbuffer`. -/
def bufsiz : Nat := 1024

def subbufsiz : Nat := 512

/-- The state of the receiver, with a record of all it has put into the pty buffer and of the
suboptions it has handled. -/
structure Rcv (E : Type) where
  state : Ts
  /-- `subbuffer` up to `subpointer`. -/
  sub : List UInt8
  env : E
  /-- `pfrontp - ptyobuf`. -/
  pfront : Nat
  pty : List UInt8
  subs : List (List UInt8)

variable {E : Type} (sv : Server E)

/-- `*pfrontp++ = c`. -/
def Rcv.place (c : UInt8) (s : Rcv E) : Rcv E :=
  { s with pfront := s.pfront + 1, pty := s.pty ++ [c] }

def Rcv.after (a : Answer E) (s : Rcv E) : Rcv E :=
  let s := { s with env := a.env, pfront := if a.flushed s.pfront then 0 else s.pfront }
  match a.placed with
  | some c => s.place c
  | none => s

def sbAccum (c : UInt8) (sub : List UInt8) : List UInt8 :=
  if sub.length < subbufsiz then sub ++ [c] else sub

/-- The end of a suboption: `IAC` and `c` are accumulated for the diagnostics and taken back. -/
def sbTerm (c : UInt8) (s : Rcv E) : Rcv E :=
  let sub := sbAccum c (sbAccum IAC s.sub)
  let sub := sub.take (sub.length - 2)
  { s with sub := [], env := sv.suboption sub s.env, subs := s.subs ++ [sub] }

/-- The arm of `AO`. -/
def abortOutput (e : E) : Answer E :=
  let e' := sv.init_termbuf (sv.ptyflush e)
  ⟨sv.sendMark e', sv.accepts e, sv.slcAo e'⟩

/-- The arm of `EC` and `EL`. -/
def erase (slc : E → Option UInt8) (e : E) : Answer E :=
  let e' := sv.init_termbuf (sv.ptyflush e)
  ⟨e', sv.accepts e, slc e'⟩

/-- The arms of `TS_IAC` that go back to `TS_DATA`. -/
def command (c : UInt8) (s : Rcv E) : Rcv E :=
  if c = IP then s.after (sv.interrupt s.env)
  else if c = BREAK then s.after (sv.sendbrk s.env)
  else if c = AYT then s.after (sv.recv_ayt s.env)
  else if c = AO then s.after (abortOutput sv s.env)
  else if c = EC then s.after (erase sv sv.slcEc s.env)
  else if c = EL then s.after (erase sv sv.slcEl s.env)
  else if c = DM then { s with env := sv.gotMark s.env }
  else if c = EOR then if sv.willEor s.env then s.after (sv.doeof s.env) else s
  else if c = xEOF then s.after (sv.doeof s.env)
  else if c = SUSP then s.after (sv.sendsusp s.env)
  else if c = ABORT then s.after (sv.sendbrk s.env)
  else if c = IAC then s.place c
  else s

/-- `gotiac`: the byte behind an `IAC`. -/
def gotiac (c : UInt8) (s : Rcv E) : Rcv E :=
  if c = SB then { s with state := .sb, sub := [] }
  else if c = Cmd.will.code then { s with state := .option .will }
  else if c = Cmd.wont.code then { s with state := .option .wont }
  else if c = Cmd.doopt.code then { s with state := .option .doopt }
  else if c = Cmd.dont.code then { s with state := .option .dont }
  else { command sv c s with state := .data }

/-- Whether a carriage return with `nc` behind it in the buffer is taken for an end of line. -/
def endsLine (e : E) (nc : Option UInt8) : Bool :=
  sv.linemode e && (nc = some 10 || (nc = some 0 && sv.tty_iscrnl e))

/-- `TS_DATA`: also, whether the byte behind `c` is taken with it. -/
def data (c : UInt8) (nc : Option UInt8) (s : Rcv E) : Rcv E × Bool :=
  if c = IAC then ({ s with state := .iac }, false)
  else if c = 13 ∧ sv.wontBinary s.env then
    if endsLine sv s.env nc then (s.place 10, true)
    else ({ s.place c with state := .cr }, false)
  else (s.place c, false)

/-- What `telrcv` does with the byte `c`; `nc` is the byte behind it if the buffer has one. -/
def turn (c : UInt8) (nc : Option UInt8) (s : Rcv E) : Rcv E × Bool :=
  match s.state with
  | .cr =>
    if c = 0 ∨ c = 10 then ({ s with state := .data }, false)
    else data sv c nc { s with state := .data }
  | .data => data sv c nc s
  | .iac => (gotiac sv c s, false)
  | .sb => (if c = IAC then { s with state := .se } else { s with sub := sbAccum c s.sub }, false)
  | .se =>
    if c = SE then ({ sbTerm sv c s with state := .data }, false)
    else if c = IAC then ({ s with state := .sb, sub := sbAccum c s.sub }, false)
    else (gotiac sv c { sbTerm sv c s with state := .iac }, false)
  | .option cmd => ({ s with state := .data, env := sv.option cmd c s.env }, false)

/-- `telrcv()` on what is left of the read buffer, and what it leaves of it: it stops when the pty
buffer has no room for two bytes. -/
def telrcv (s : Rcv E) : List UInt8 → Rcv E × List UInt8
  | [] => (s, [])
  | [c] => if bufsiz < s.pfront + 2 then (s, [c]) else ((turn sv c none s).1, [])
  | c :: nc :: rest =>
    if bufsiz < s.pfront + 2 then (s, c :: nc :: rest)
    else
      let r := turn sv c (some nc) s
      if r.2 then telrcv r.1 rest else telrcv r.1 (nc :: rest)

/-- Calls of `telrcv` on one read buffer, the pty buffer being drained before each. -/
def calls : Nat → Rcv E → List UInt8 → Rcv E × List UInt8
  | 0, s, buf => (s, buf)
  | fuel + 1, s, buf =>
    let r := telrcv sv { s with pfront := 0 } buf
    if r.2 = [] then r else calls fuel r.1 r.2

def received (s : Rcv E) (buf : List UInt8) : Rcv E := (calls sv (buf.length + 1) s buf).1

def receiveAll (s : Rcv E) (bufs : List (List UInt8)) : Rcv E := bufs.foldl (received sv) s

end Bsdi.Telnet
