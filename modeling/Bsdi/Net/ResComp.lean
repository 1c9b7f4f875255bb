import Bsdi.Lib.Memory

/-!
# Compressing and expanding domain names

The functions of `res_comp.c` on a message. Pointers into the message are offsets from `msg`,
and a C string is the list of its characters before the terminator. `dn_find` and `dn_expand`
follow pointers, so their loops have a bound on their turns.
-/

namespace Bsdi.Net

open Lib

abbrev Byte := UInt8

def indirMask : Nat := 0xc0

def maxlabel : Nat := 63

/-- The character `.`. -/
def dot : Byte := 46

/-- The character `\`. -/
def backslash : Byte := 92

def mklower (ch : Byte) : Byte := if 65 ≤ ch ∧ ch ≤ 90 then ch + 32 else ch

/-- `isspace` on the ASCII characters. -/
def isspace (c : Byte) : Bool := c == 32 || (9 ≤ c && c ≤ 13)

/-- The length byte `n` announces a pointer. -/
def Indirect (n : Byte) : Prop := n.toNat &&& indirMask = indirMask

instance : DecidablePred Indirect := fun _ => inferInstanceAs (Decidable (_ = _))

/-- The offset in a pointer of the bytes `n` and `m`. -/
def indirection (n m : Byte) : Nat := ((n.toNat &&& 0x3f) <<< 8) ||| m.toNat

/-- How the comparison of a name with one entry of the list ends. -/
inductive Walk
  | found
  | next
  | illegal
  deriving DecidableEq, Repr

/-- The text from the next character of a label on: a backslash is passed over. -/
def unescape (dn : List Byte) : List Byte := if dn.headD 0 = backslash then dn.tail else dn

/-- The inner loop of `dn_find`: `n` bytes of a label against the text. What is left of the
text, or that they differ. -/
def dnMatch (mem : Nat → Byte) : Nat → Nat → List Byte → Option (List Byte)
  | 0, _, dn => some dn
  | n + 1, cp, dn =>
    if dn.headD 0 = dot then none
    else if mklower ((unescape dn).headD 0) = mklower (mem cp) then
      dnMatch mem n (cp + 1) (unescape dn).tail
    else none

/-- The body of the loop of `dn_find` for one entry. It has no result when the pointers of
the message form a loop. -/
def dnWalk (mem : Nat → Byte) : Nat → Nat → List Byte → Option Walk
  | 0, _, _ => none
  | fuel + 1, cp, dn =>
    let n := mem cp
    if n = 0 then some (if dn = [] then .found else .next)
    else if n.toNat &&& indirMask = 0 then
      match dnMatch mem n.toNat (cp + 1) dn with
      | none => some .next
      | some [] => some (if mem (cp + 1 + n.toNat) = 0 then .found else .next)
      | some (c :: dn) => if c = dot then dnWalk mem fuel (cp + 1 + n.toNat) dn else some .next
    else if Indirect n then dnWalk mem fuel (indirection n (mem (cp + 1))) dn
    else some .illegal

/-- The turns of `dnWalk`: more than a message has bytes. -/
def turns : Nat := 65536

/-- `dn_find` over the entries of the list before `lastdnptr`: the offset of the text in the
message, if it is there. -/
def dnFind (mem : Nat → Byte) : List Nat → List Byte → Option (Option Nat)
  | [], _ => some none
  | sp :: cpp, dn =>
    match dnWalk mem turns sp dn with
    | none => none
    | some .found => some (some sp)
    | some .next => dnFind mem cpp dn
    | some .illegal => some none

/-- The `do` loop of `dn_comp`: copies a label to `cp`. The memory, where the label ends, and
what is left of the text, if the label fits. -/
def dnLabel (eob : Nat) : List Byte → (Nat → Byte) → Nat → (Nat → Byte) × Nat × Option (List Byte)
  | [], mem, cp => (mem, cp, some [])
  | c :: dn, mem, cp =>
    if c = dot then (mem, cp, some dn)
    else if c = backslash then
      match dn with
      | [] => (mem, cp, some [])
      | c :: dn =>
        if eob ≤ cp then (mem, cp, none) else dnLabel eob dn (store mem cp [c]) (cp + 1)
    else if eob ≤ cp then (mem, cp, none)
    else dnLabel eob dn (store mem cp [c]) (cp + 1)

/-- What a call of `dn_comp` leaves. -/
structure Comp where
  mem : Nat → Byte
  /-- The list of pointers, without `dnptrs[0]` and the final `NULL`. -/
  ptrs : List Nat
  /-- Where the name ends, or that the call returned -1. -/
  cp : Option Nat

/-- Whether there is a place for another entry: `lastdnptr` is `last` places behind `dnptrs`. -/
def Saves (last : Option Nat) (ptrs : List Nat) : Prop := ∃ n ∈ last, ptrs.length + 2 < n

instance (last : Option Nat) (ptrs : List Nat) : Decidable (Saves last ptrs) :=
  match last with
  | none => isFalse (by simp [Saves])
  | some n => decidable_of_iff (ptrs.length + 2 < n) (by simp [Saves])

/-- The last lines of `dn_comp`. -/
def dnFinish (eob : Nat) (lpp : List Nat) (mem : Nat → Byte) (ptrs : List Nat) (cp : Nat) : Comp :=
  if eob ≤ cp then ⟨mem, lpp, none⟩ else ⟨store mem cp [0], ptrs, some (cp + 1)⟩

/-- The `for` loop of `dn_comp`. `lpp` are the entries from before the call: they are searched,
and the list is cut back to them when a label does not fit. -/
def dnLoop (last : Option Nat) (eob : Nat) (lpp : List Nat) :
    Nat → (Nat → Byte) → List Nat → Nat → List Byte → Option Comp
  | 0, _, _, _, _ => none
  | fuel + 1, mem, ptrs, cp, dn =>
    if dn = [] then some (dnFinish eob lpp mem ptrs cp)
    else
      match dnFind mem lpp dn with
      | none => none
      | some (some l) =>
        -- the list is not cut back here
        if eob ≤ cp + 1 then some ⟨mem, ptrs, none⟩
        else
          let bytes := [UInt8.ofNat ((l >>> 8) ||| indirMask), UInt8.ofNat (l % 256)]
          some ⟨store mem cp bytes, ptrs, some (cp + 2)⟩
      | some none =>
        let ptrs := if Saves last ptrs then ptrs ++ [cp] else ptrs
        match dnLabel eob dn mem (cp + 1) with
        | (mem, _, none) => some ⟨mem, lpp, none⟩
        | (mem, cp', some dn) =>
          let l := cp' - cp - 1
          if l = 0 ∧ dn = [] then some (dnFinish eob lpp mem ptrs cp)
          else if l = 0 ∨ maxlabel < l then some ⟨mem, lpp, none⟩
          else dnLoop last eob lpp fuel (store mem cp [UInt8.ofNat l]) ptrs cp' dn

/-- `dn_comp` of the text `dn` at offset `at`, into an array of `length` bytes. -/
def dnComp (last : Option Nat) (mem : Nat → Byte) (ptrs : List Nat) (dn : List Byte)
    (comp length : Nat) : Option Comp :=
  dnLoop last (comp + length) ptrs (dn.length + 1) mem ptrs comp dn

/-- The inner loop of `dn_expand`: appends the `n` bytes of a label at `cp` to the text. -/
def expandLabel (mem : Nat → Byte) (eom length : Nat) :
    Nat → Nat → List Byte → Option (List Byte)
  | 0, _, dn => some dn
  | n + 1, cp, dn =>
    let c := mem cp
    if c = dot ∧ length ≤ dn.length + n + 2 then none
    else
      let dn := if c = dot then dn ++ [backslash, c] else dn ++ [c]
      if eom ≤ cp + 1 then none else expandLabel mem eom length n (cp + 1) dn

/-- The loop of `dn_expand`. Labels move `cp` on and must stay below `eom`, pointers are only
followed while `checked` is below `eom`, and both count at least two: `eom + 2` turns suffice. -/
def expandLoop (mem : Nat → Byte) (eom length comp : Nat) :
    Nat → Nat → List Byte → Option Nat → Nat → Option (Nat × List Byte)
  | 0, _, _, _, _ => none
  | fuel + 1, cp, dn, len, checked =>
    let n := mem cp
    if n = 0 then
      -- the text ends at the first NUL
      let text := dn.takeWhile (· ≠ 0)
      if text.any isspace then none else some (len.getD (cp + 1 - comp), text)
    else if n.toNat &&& indirMask = 0 then
      if dn ≠ [] ∧ length ≤ dn.length then none
      else
        let dn := if dn = [] then dn else dn ++ [dot]
        if length ≤ dn.length + n.toNat then none
        else
          match expandLabel mem eom length n.toNat (cp + 1) dn with
          | none => none
          | some dn =>
            expandLoop mem eom length comp fuel (cp + 1 + n.toNat) dn len
              (checked + n.toNat + 1)
    else if Indirect n then
      let len := some (len.getD (cp + 2 - comp))
      let cp := indirection n (mem (cp + 1))
      if eom ≤ cp then none
      else if eom ≤ checked + 2 then none
      else expandLoop mem eom length comp fuel cp dn len (checked + 2)
    else none

/-- `dn_expand` of the name at offset `comp` of a message of `eom` bytes, into an array of
`length` bytes: the size of the compressed name and the text. -/
def dnExpand (mem : Nat → Byte) (eom comp length : Nat) : Option (Nat × List Byte) :=
  expandLoop mem eom length comp (eom + 2) comp [] none 0

/-- What an application does while it builds a message. -/
inductive Op
  /-- Other bytes are placed. -/
  | place (bytes : List Byte)
  /-- `dn_comp` of a name, with the room it is given. -/
  | comp (name : List Byte) (length : Nat)

/-- A name in the message: where it starts, what `dn_comp` returned, and its text. -/
structure Placed where
  offset : Nat
  size : Nat
  name : List Byte

structure Message where
  mem : Nat → Byte
  /-- The bytes of the message so far. -/
  len : Nat
  ptrs : List Nat
  names : List Placed

def Message.empty (mem : Nat → Byte) : Message := ⟨mem, 0, [], []⟩

def Message.step (last : Option Nat) (m : Message) : Op → Option Message
  | .place bytes => some { m with mem := store m.mem m.len bytes, len := m.len + bytes.length }
  | .comp name length =>
    match dnComp last m.mem m.ptrs name m.len length with
    | none => none
    | some ⟨mem, ptrs, none⟩ => some { m with mem := mem, ptrs := ptrs }
    | some ⟨mem, ptrs, some cp⟩ =>
      some ⟨mem, cp, ptrs, m.names ++ [⟨m.len, cp - m.len, name⟩]⟩

end Bsdi.Net
