import Mathlib.Data.List.Basic

/-!
# Matching file names

`fnmatch.c`. A C string is the list of its characters before the terminator.
-/

namespace Bsdi.Gen

abbrev Byte := UInt8

/-- The value of a `char`, which has a sign. -/
def schar (c : Byte) : Int := if c < 128 then c.toNat else (c.toNat : Int) - 256

structure Flags where
  /-- `FNM_NOESCAPE`. -/
  noescape : Bool
  /-- `FNM_PATHNAME`. -/
  pathname : Bool
  /-- `FNM_PERIOD`. -/
  period : Bool

def question : Byte := 63

def asterisk : Byte := 42

def bracket : Byte := 91

def closing : Byte := 93

def backslash : Byte := 92

def bang : Byte := 33

def circumflex : Byte := 94

def dash : Byte := 45

def slash : Byte := 47

def dot : Byte := 46

variable (fl : Flags)

def rangeChar : List Byte → Option (Byte × List Byte)
  | [] => none
  | c :: pattern =>
    if c = backslash ∧ fl.noescape = false then
      match pattern with
      | [] => none
      | c :: pattern => some (c, pattern)
    else some (c, pattern)

/-- `c` is followed by a dash and the end of a range. -/
def rangeFollows (pattern : List Byte) : Bool :=
  match pattern with
  | d :: c2 :: _ => d = dash ∧ c2 ≠ closing
  | _ => false

/-- The loop of `rangematch`. Every turn moves on in the pattern. -/
def rangeLoop (test : Byte) : Nat → List Byte → Bool → Option (Bool × List Byte)
  | 0, _, _ => none
  | fuel + 1, pattern, ok =>
    if pattern.head? = some closing then some (ok, pattern.tail)
    else
      match rangeChar fl pattern with
      | none => none
      | some (c, pattern) =>
        if rangeFollows pattern then
          match rangeChar fl pattern.tail with
          | none => none
          | some (c2, pattern) =>
            rangeLoop test fuel pattern
              (ok || (schar c ≤ schar test && schar test ≤ schar c2))
        else rangeLoop test fuel pattern (ok || c == test)

def negates (pattern : List Byte) : Bool :=
  pattern.head? = some bang || pattern.head? = some circumflex

def rangeList (pattern : List Byte) : List Byte :=
  if negates pattern then pattern.tail else pattern

/-- `rangematch`: the pattern behind the brackets if they match. -/
def rangematch (pattern : List Byte) (test : Byte) : Option (List Byte) :=
  match rangeLoop fl test (pattern.length + 1) (rangeList pattern) false with
  | none => none
  | some (ok, rest) => if ok = negates pattern then none else some rest

/-- The string begins with a period that only a period of the pattern may match. `prev` is the
character before it, if the string is not at its start. -/
def leadingPeriod (prev : Option Byte) (string : List Byte) : Bool :=
  string.head? = some dot && fl.period && (prev = none || (fl.pathname && prev = some slash))

/-- `strchr(string, '/')`, with the character before. -/
def toSlash : Option Byte → List Byte → Option (Option Byte × List Byte)
  | _, [] => none
  | prev, c :: string => if c = slash then some (prev, c :: string) else toSlash (some c) string

/-- The loop for an asterisk: `rest` is the call for what is behind it. -/
def starLoop (rest : List Byte → Bool) : List Byte → Bool
  | [] => false
  | c :: string =>
    rest (c :: string) || (!(c == slash && fl.pathname) && starLoop rest string)

def literal (c : Byte) (pattern : List Byte) : Byte × List Byte :=
  if c = backslash ∧ fl.noescape = false then
    match pattern with
    | [] => (backslash, [])
    | c :: pattern => (c, pattern)
  else (c, pattern)

/-- The loop of `fnmatch`: whether it returns 0. Every turn moves on in the pattern. -/
def fnmatchLoop : Flags → Nat → List Byte → Option Byte → List Byte → Bool
  | _, 0, _, _, _ => false
  | _, _ + 1, [], _, string => string.isEmpty
  | fl, fuel + 1, c :: pattern, prev, string =>
    if c = question then
      match string with
      | [] => false
      | d :: rest =>
        if (d == slash && fl.pathname) || leadingPeriod fl prev string then false
        else fnmatchLoop fl fuel pattern (some d) rest
    else if c = asterisk then
      let pattern := pattern.dropWhile (· = asterisk)
      if leadingPeriod fl prev string then false
      else if pattern = [] then !(fl.pathname && string.contains slash)
      else if pattern.head? = some slash ∧ fl.pathname = true then
        match toSlash prev string with
        | none => false
        | some (prev, string) => fnmatchLoop fl fuel pattern prev string
      else
        -- behind the asterisk the periods are not looked at
        starLoop fl (fnmatchLoop { fl with period := false } fuel pattern none) string
    else if c = bracket then
      match string with
      | [] => false
      | d :: rest =>
        if d == slash && fl.pathname then false
        else
          match rangematch fl pattern d with
          | none => false
          | some pattern => fnmatchLoop fl fuel pattern (some d) rest
    else
      let lit := literal fl c pattern
      match string with
      | [] => false
      | d :: rest => lit.1 == d && fnmatchLoop fl fuel lit.2 (some d) rest

/-- `fnmatch`: whether it returns 0. -/
def fnmatch (pattern string : List Byte) : Bool :=
  fnmatchLoop fl (pattern.length + 1) pattern none string

end Bsdi.Gen
