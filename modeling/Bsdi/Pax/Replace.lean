import Bsdi.Pax.Archd

/-!
# Replacement strings

The `-s` option of pax: `rep_add` reads a replacement string, `rep_name` walks the list of them for
a name, and `resub` puts the replaced text together. Regular expressions are a parameter. A pointer
into a string is the list of the characters from there on, with anything behind the zero.
-/

namespace Bsdi.Pax

/-- What `regexec` reports of a match in a line, looked for from `start` on: the offsets of
`pm[0]`, and those of the subexpressions, with `none` for the offsets -1. -/
structure RegMatch (line : List Chr) (start : Nat) where
  so : Nat
  eo : Nat
  sub : Nat → Option (Nat × Nat)
  start_le : start ≤ so
  so_le : so ≤ eo
  eo_le : eo ≤ line.length
  sub_le : ∀ {i g}, sub i = some g → so ≤ g.1 ∧ g.1 ≤ g.2 ∧ g.2 ≤ eo

/-- The array `pm`. -/
def RegMatch.pm {line : List Chr} {start : Nat} (m : RegMatch line start) :
    Nat → Option (Nat × Nat)
  | 0 => some (m.so, m.eo)
  | i + 1 => m.sub (i + 1)

/-- A `regex_t`: the number of its subexpressions, and the leftmost match in a line from an offset
on. The string a pointer points at is the line of its own, from offset 0. -/
structure RegexT where
  nsub : Nat
  regexec (line : List Chr) (start : Nat) : Option (RegMatch line start)

/-- `REPLACE`. The text at `nstr` goes to its first zero. -/
structure Replace where
  rcmp : RegexT
  nstr : List Chr
  glob : Bool
  prnt : Bool

def str (p : List Chr) : List Chr := p.takeWhile (· != 0)

/-- The string up to the first `delim`, which `strchr` finds, and the string behind it. -/
def splitAtDelim (delim : Chr) (s : List Chr) : Option (List Chr × List Chr) :=
  if delim ∈ s then some (s.takeWhile (· != delim), (s.dropWhile (· != delim)).tail) else none

/-- `rep_add`, where `behind` is what the memory holds behind the argument. The zeros that it
stores in place of the delimiters end the expression and the new text. -/
def repAdd (regcomp : List Chr → Option RegexT) (arg behind : List Chr) : Option Replace :=
  match arg with
  | [] => none
  | delim :: rest =>
    match splitAtDelim delim rest with
    | none => none
    | some (old, rest) =>
      match regcomp old with
      | none => none
      | some rcmp =>
        match splitAtDelim delim rest with
        | none => none
        | some (new, opts) =>
          if opts.all fun c => c == 103 || c == 71 || c == 112 || c == 80 then
            some {
              rcmp
              nstr := new ++ 0 :: (opts ++ 0 :: behind)
              glob := opts.any fun c => c == 103 || c == 71
              prnt := opts.any fun c => c == 112 || c == 80 }
          else none

/-- What `resub` reads next of a replacement text: a character to copy, or the number of a
subexpression. -/
inductive Piece
  | chr (c : Chr)
  | ref (n : Nat)
  deriving DecidableEq, Repr

/-- A replacement text as `resub` reads it. `&` is the whole match and so is `\0`; a backslash
takes the meaning from itself and from `&`, and is an ordinary character elsewhere. -/
def pieces : List Chr → List Piece
  | [] => []
  | c :: src =>
    if c = 0 then []
    else if c = 38 then .ref 0 :: pieces src
    else if c = 92 then
      match src with
      | [] => [.chr 92]
      | d :: src =>
        if 48 ≤ d ∧ d ≤ 57 then .ref (d.toNat - 48) :: pieces src
        else if d = 92 ∨ d = 38 then .chr d :: pieces src
        else .chr 92 :: pieces (d :: src)
    else .chr c :: pieces src

def window (s : List Chr) (g : Nat × Nat) : List Chr := (s.drop g.1).take (g.2 - g.1)

/-- `resub` with room for so many characters: `none` for -1, otherwise what it adds. The matched
text is copied by `l_strncpy` from `src`, which points at the replacement text. -/
def resub (nsub : Nat) (pm : Nat → Option (Nat × Nat)) (src : List Chr) :
    Nat → List Piece → Option (List Chr)
  | 0, _ => some []
  | _ + 1, [] => some []
  | room + 1, .chr c :: spt => (resub nsub pm src room spt).map (c :: ·)
  | room + 1, .ref n :: spt =>
    if nsub < n then none
    else
      match pm n with
      | none => resub nsub pm src (room + 1) spt
      | some (so, eo) =>
        if eo ≤ so then resub nsub pm src (room + 1) spt
        else
          let len := min (eo - so) (room + 1)
          let copied := str (window src (so, so + len))
          if copied.length = len then
            (resub nsub pm src (room + 1 - len) spt).map (copied ++ ·)
          else none

/-- Why a member is skipped: `Replacement name error`, `Replacement name too long`, or that
nothing is left of its name. -/
inductive Refusal
  | error | tooLong | empty
  deriving DecidableEq, Repr

/-- What `rep_name` returns: 0 and the name, or 1. -/
inductive Outcome
  | name (s : List Chr)
  | skip (why : Refusal)
  deriving DecidableEq, Repr

/-- The end of `rep_name`: an empty name skips the member. -/
def newName (nname : List Chr) : Outcome := if nname = [] then .skip .empty else .name nname

/-- How the inner loop of `rep_name` ends: with `resub` failing, or with `found`, `inpt` and what
has been written to `nname`. -/
inductive Substituted
  | refused
  | upTo (found : Bool) (inpt out : List Chr)

/-- The inner loop of `rep_name`, for so many passes at most. -/
def repLoop (pt : Replace) : Nat → Bool → List Chr → List Chr → Option Substituted
  | 0, _, _, _ => none
  | fuel + 1, found, inpt, out =>
    match pt.rcmp.regexec (str inpt) 0 with
    | none => some (.upTo found inpt out)
    | some m =>
      -- the prefix moves `inpt` to the start of the match
      let cnt := min m.so (paxpathlen - out.length)
      let out := out ++ inpt.take cnt
      let inpt := inpt.drop cnt
      if out.length = paxpathlen then some (.upTo true inpt out)
      else
        match resub pt.rcmp.nsub m.pm pt.nstr (paxpathlen - out.length) (pieces pt.nstr) with
        | none => some .refused
        | some res =>
          let out := out ++ res
          -- and the offset of its end is added to that
          let inpt := inpt.drop m.eo
          if out.length = paxpathlen ∨ inpt.headD 0 = 0 then some (.upTo true inpt out)
          else if pt.glob then repLoop pt fuel true inpt out
          else some (.upTo true inpt out)

section
variable {pt : Replace}

theorem repLoop_none {rest inpt out : List Chr} {fuel : Nat} {found : Bool}
    (hstr : str inpt = rest) (h : pt.rcmp.regexec rest 0 = none) :
    repLoop pt (fuel + 1) found inpt out = some (.upTo found inpt out) := by
  subst hstr
  rw [repLoop, h]

theorem repLoop_some {rest inpt out : List Chr} {m : RegMatch rest 0} {fuel : Nat} {found : Bool}
    (hstr : str inpt = rest) (h : pt.rcmp.regexec rest 0 = some m) :
    repLoop pt (fuel + 1) found inpt out =
      let cnt := min m.so (paxpathlen - out.length)
      if (out ++ inpt.take cnt).length = paxpathlen then
        some (.upTo true (inpt.drop cnt) (out ++ inpt.take cnt))
      else
        match resub pt.rcmp.nsub m.pm pt.nstr (paxpathlen - (out ++ inpt.take cnt).length)
          (pieces pt.nstr) with
        | none => some .refused
        | some res =>
          if (out ++ inpt.take cnt ++ res).length = paxpathlen ∨
              ((inpt.drop cnt).drop m.eo).headD 0 = 0 then
            some (.upTo true ((inpt.drop cnt).drop m.eo) (out ++ inpt.take cnt ++ res))
          else if pt.glob then
            repLoop pt fuel true ((inpt.drop cnt).drop m.eo) (out ++ inpt.take cnt ++ res)
          else some (.upTo true ((inpt.drop cnt).drop m.eo) (out ++ inpt.take cnt ++ res)) := by
  subst hstr
  rw [repLoop, h]

end

/-- `rep_name` after a substitution: the tail is copied, if there is room. -/
def repTail (inpt out : List Chr) : Outcome :=
  if paxpathlen - out.length < (str inpt).length then .skip .tooLong
  else newName (out ++ str inpt)

/-- The outer loop of `rep_name`, along the list. -/
def repList (fuel : Nat) (name : List Chr) : List Replace → List Chr → List Chr → Option Outcome
  | [], _, _ => some (.name name)
  | pt :: fow, inpt, out =>
    match repLoop pt fuel false inpt out with
    | none => none
    | some .refused => some (.skip .error)
    | some (.upTo true inpt out) => some (repTail inpt out)
    | some (.upTo false inpt out) => repList fuel name fow inpt out

/-- `rep_name`, with so many passes of each inner loop at most. What lies behind the name in
`buf1` is `junk`. -/
def repName (fuel : Nat) (reps : List Replace) (name junk : List Chr) : Option Outcome :=
  repList fuel name reps (name ++ 0 :: junk) []

end Bsdi.Pax
