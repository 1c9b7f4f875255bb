import Mathlib.Data.Int.Init
import Mathlib.Tactic.Common

/-!
# Option negotiation

The state machines of `telnetd` for one option that is handled by the default arms: the half of the
side that says `DO` and `DONT`, and the half of the side that says `WILL` and `WONT`. The two sides
are joined by two channels.
-/

namespace Bsdi.Telnet

/-- The commands of `arpa/telnet.h`. -/
inductive Cmd
  | will
  | wont
  | doopt
  | dont
  deriving DecidableEq, Repr

def dos (new : Bool) : Cmd := if new then .doopt else .dont

def wills (new : Bool) : Cmd := if new then .will else .wont

/-- A `char`, which has a sign. -/
def char (n : Int) : Int := n.bmod 256

structure Half where
  /-- The last negotiated state. -/
  state : Bool
  want : Bool
  /-- `do_dont_resp` or `will_wont_resp`, which are arrays of `char`. -/
  resp : Int
  deriving DecidableEq, Repr

def Half.off : Half := ⟨false, false, 0⟩

/-- A function that sends the state `new`, when it is `init`iated here or as an answer. -/
def sendOption (new init : Bool) (h : Half) : Half × List Bool :=
  if init then
    if (h.resp = 0 && h.state = new) || h.want = new then (h, [])
    else ({ h with want := new, resp := char (h.resp + 1) }, [new])
  else (h, [new])

/-- The count of requests after the other side has sent `new`. -/
def answered (new : Bool) (h : Half) : Half :=
  if h.resp ≠ 0 then
    let resp := char (h.resp - 1)
    { h with resp := if resp ≠ 0 && h.state = new then char (resp - 1) else resp }
  else h

/-- The positive state comes in; `changeok` is whether it is taken. -/
def recvPositive (changeok : Bool) (h : Half) : Half × List Bool :=
  let h := answered true h
  let r :=
    if h.resp = 0 && !h.want then
      if changeok then sendOption true false { h with want := true }
      else sendOption false false { h with resp := char (h.resp + 1) }
    else (h, [])
  ({ r.1 with state := true }, r.2)

def recvNegative (h : Half) : Half × List Bool :=
  let h := answered false h
  let r :=
    if h.resp = 0 && h.want then
      let h := { h with want := false }
      if h.state then sendOption false false h else (h, [])
    else (h, [])
  ({ r.1 with state := false }, r.2)

def encode (cmd : Bool → Cmd) (r : Half × List Bool) : Half × List Cmd := (r.1, r.2.map cmd)

def send_do (init : Bool) (h : Half) : Half × List Cmd := encode dos (sendOption true init h)

def send_dont (init : Bool) (h : Half) : Half × List Cmd := encode dos (sendOption false init h)

def willoption (changeok : Bool) (h : Half) : Half × List Cmd := encode dos (recvPositive changeok h)

def wontoption (h : Half) : Half × List Cmd := encode dos (recvNegative h)

def send_will (init : Bool) (h : Half) : Half × List Cmd := encode wills (sendOption true init h)

def send_wont (init : Bool) (h : Half) : Half × List Cmd := encode wills (sendOption false init h)

def dooption (changeok : Bool) (h : Half) : Half × List Cmd := encode wills (recvPositive changeok h)

def dontoption (h : Half) : Half × List Cmd := encode wills (recvNegative h)

/-- Whether a side accepts the option. -/
structure Policy where
  /-- The side that says `DO` and `DONT`. -/
  asks : Bool
  /-- The side that says `WILL` and `WONT`. -/
  does : Bool

/-- Both sides, what is on its way between them, and the messages and requests sent so far. -/
structure Net where
  asks : Half
  does : Half
  toDoes : List Cmd
  toAsks : List Cmd
  sent : Nat
  /-- The calls with `init` that sent something. -/
  requests : Nat
  deriving DecidableEq, Repr

def Net.start : Net := ⟨.off, .off, [], [], 0, 0⟩

inductive Event
  | askDo
  | askDont
  | askWill
  | askWont
  /-- The first message to the side that says `DO` arrives. -/
  | toAsks
  /-- The first message to the side that says `WILL` arrives. -/
  | toDoes
  deriving DecidableEq, Repr

def Net.fromAsks (n : Net) (init : Bool) (r : Half × List Cmd) : Net :=
  { n with asks := r.1, toDoes := n.toDoes ++ r.2, sent := n.sent + r.2.length,
           requests := if init then n.requests + r.2.length else n.requests }

def Net.fromDoes (n : Net) (init : Bool) (r : Half × List Cmd) : Net :=
  { n with does := r.1, toAsks := n.toAsks ++ r.2, sent := n.sent + r.2.length,
           requests := if init then n.requests + r.2.length else n.requests }

/-- What an event does, where it can happen. A side asks for the option only if it accepts it. -/
def step (pol : Policy) (n : Net) : Event → Option Net
  | .askDo => if pol.asks then some (n.fromAsks true (send_do true n.asks)) else none
  | .askDont => some (n.fromAsks true (send_dont true n.asks))
  | .askWill => if pol.does then some (n.fromDoes true (send_will true n.does)) else none
  | .askWont => some (n.fromDoes true (send_wont true n.does))
  | .toAsks =>
    match n.toAsks with
    | .will :: rest =>
      some (Net.fromAsks { n with toAsks := rest } false (willoption pol.asks n.asks))
    | .wont :: rest => some (Net.fromAsks { n with toAsks := rest } false (wontoption n.asks))
    | _ => none
  | .toDoes =>
    match n.toDoes with
    | .doopt :: rest =>
      some (Net.fromDoes { n with toDoes := rest } false (dooption pol.does n.does))
    | .dont :: rest => some (Net.fromDoes { n with toDoes := rest } false (dontoption n.does))
    | _ => none

/-- The states that are reached over events that are admitted. -/
inductive Reached (pol : Policy) (ok : Net → Event → Prop) : Net → Prop
  | start : Reached pol ok .start
  | step {n n' : Net} {e : Event} : Reached pol ok n → ok n e → step pol n e = some n' →
      Reached pol ok n'

end Bsdi.Telnet
