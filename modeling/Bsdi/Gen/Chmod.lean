import Bsdi.Gen.CompressMode

/-!
# What the modes of `chmod` mean

A mode as `chmod.1` describes it: a number in octal, or clauses whose actions are applied to the
mode of the file one after the other. `setmode` gives that meaning to a symbolic mode unless an action is
of one of the kinds it compiles otherwise.
-/

namespace Bsdi.Setmode

/-- An action: who it is for, its operator and its permissions. -/
structure Action where
  who : List Char
  op : Char
  perms : List Char

def isWho (c : Char) : Bool := c = 'a' || c = 'u' || c = 'g' || c = 'o'

def isCopy (c : Char) : Bool := c = 'u' || c = 'g' || c = 'o'

def isPerm (c : Char) : Bool :=
  c = 'r' || c = 's' || c = 't' || c = 'w' || c = 'X' || c = 'x' || isCopy c

/-- The actions of a list of clauses from a character on: in the letters that say who, or in the
permissions of an action. -/
def actions : Bool → Action → List Char → Option (List Action)
  | true, _, [] => none
  | true, a, c :: p =>
    if isWho c then actions true { a with who := a.who ++ [c] } p
    else if isOp c then actions false ⟨a.who, c, []⟩ p else none
  | false, a, [] => some [a]
  | false, a, c :: p =>
    if isPerm c then actions false { a with perms := a.perms ++ [c] } p
    else if c = ',' then (actions true ⟨[], '+', []⟩ p).map (a :: ·)
    else if isOp c then (actions false ⟨a.who, c, []⟩ p).map (a :: ·)
    else none

/-- The bits of a class, `u`, `g` or `o`. -/
def classBits (m : Mode) (c : Char) : BitVec 3 :=
  m.extractLsb' (if c = 'u' then 6 else if c = 'g' then 3 else 0) 3

def spread (v : BitVec 3) : Mode := v.setWidth 16 <<< 6 ||| v.setWidth 16 <<< 3 ||| v.setWidth 16

def whoMask (who : List Char) : Mode := who.foldl (fun m c => m ||| (whoBits c).getD 0#16) 0#16

def Searchable (omode : Mode) : Prop := omode &&& 0o170000#16 = S_IFDIR ∨ omode &&& execBits ≠ 0#16

instance (omode : Mode) : Decidable (Searchable omode) := inferInstanceAs (Decidable (_ ∨ _))

namespace Action

def othersOnly (a : Action) : Bool := !a.who.isEmpty && a.who.all (· = 'o')

/-- What a permission stands for with a file that had the mode `omode` and now has `m`. -/
def permBits (omode m : Mode) (a : Action) (c : Char) : Mode :=
  if c = 'r' then readBits
  else if c = 'w' then writeBits
  else if c = 'x' then execBits
  else if c = 'X' then if a.op = '+' ∧ Searchable omode then execBits else 0#16
  else if c = 's' then if a.othersOnly then 0#16 else S_ISUID ||| S_ISGID
  else if c = 't' then if a.othersOnly then 0#16 else S_ISTXT
  else spread (classBits m c)

def bits (omode m : Mode) (a : Action) (perms : List Char) : Mode :=
  perms.foldl (fun b c => b ||| a.permBits omode m c) 0#16

/-- The bits that can be set: those the creation mask leaves when nobody is named. -/
def scope (umask : Mode) (a : Action) : Mode :=
  if a.who = [] then ~~~umask else whoMask a.who ||| S_ISTXT

/-- The bits that `=` clears. -/
def cleared (a : Action) : Mode := if a.who = [] then standardBits else whoMask a.who

/-- What an action makes of the mode `m`. -/
def apply (umask omode m : Mode) (a : Action) : Mode :=
  let bits := a.bits omode m a.perms &&& a.scope umask
  if a.op = '+' then m ||| bits
  else if a.op = '-' then m &&& ~~~bits
  else (m &&& ~~~a.cleared) ||| bits

/-- `setmode` compiles the action as it is meant. Without who, `s` is forgotten and `t` stands
alone; `t` is not forgotten for the others; only `=` with nothing but one copy takes the copy over,
and then clears only what it can set; and `X` is tested as a bit and with every operator. -/
structure Plain (umask omode m : Mode) (a : Action) : Prop where
  nobody : a.who = [] → 's' ∉ a.perms ∧ ('t' ∈ a.perms →
    a.op ≠ '=' ∧ (∀ c ∈ a.perms, c = 't') ∧ umask &&& S_ISTXT = 0#16)
  others : a.othersOnly = true → 't' ∉ a.perms
  copies : a.op = '=' → (∃ c ∈ a.perms, isCopy c) →
    (∃ c, a.perms = [c]) ∧ m &&& a.cleared &&& ~~~(a.scope umask &&& 0o777#16) = 0#16
  searches : 'X' ∈ a.perms → (XApplies omode ↔ a.op = '+' ∧ Searchable omode)

/-- Every one of the actions is compiled as it is meant at the mode it is applied to. -/
def AllPlain (umask omode : Mode) : Mode → List Action → Prop
  | _, [] => True
  | m, a :: rest => a.Plain umask omode m ∧ AllPlain umask omode (a.apply umask omode m) rest

end Action

def octalValue (p : List Char) : Nat := p.foldl (fun n c => 8 * n + (c.toNat - '0'.toNat)) 0

def permissionBits : Mode := standardBits ||| S_ISTXT

/-- The mode that `chmod` is to give a file: `none` for what is no mode. -/
def chmod (umask omode : Mode) : List Char → Option Mode
  | [] => none
  | c :: p =>
    if isdigit c then
      if (c :: p).all isoctal then
        some ((omode &&& ~~~permissionBits) |||
          (BitVec.ofNat 16 (octalValue (c :: p)) &&& permissionBits))
      else none
    else
      (actions true ⟨[], '+', []⟩ (c :: p)).map fun acts =>
        acts.foldl (Action.apply umask omode) omode

/-- The command a letter of `getmode` stands for. -/
def isCommand (c : Char) : Bool := isCopy c || c = '+' || c = '-' || c = 'X'

/-- When `setmode` does what is meant: a number has octal digits only, and what is in the array
behind its two commands is no command; and all actions of clauses are plain. -/
def Faithful (stale : Nat → Bitcmd) (umask omode : Mode) : List Char → Prop
  | [] => True
  | c :: p =>
    if isdigit c then (c :: p).all isoctal = true ∧ isCommand (stale 2).cmd = false
    else
      ∀ acts, actions true ⟨[], '+', []⟩ (c :: p) = some acts →
        Action.AllPlain umask omode omode acts

theorem spread_or : ∀ v w : BitVec 3, spread (v ||| w) = spread v ||| spread w := by decide

theorem spread_clear : ∀ v w : BitVec 3, spread (v &&& ~~~w) = spread v &&& ~~~spread w := by decide

theorem spread_and_le : ∀ v w : BitVec 3, spread v ||| spread (v &&& w) = spread v := by decide

theorem spread_low : ∀ v : BitVec 3, spread v &&& 0o777#16 = spread v := by decide

theorem spread_shifts : ∀ v : BitVec 3, v.setWidth 16 <<< 6 = spread v &&& S_IRWXU ∧
    v.setWidth 16 <<< 3 = spread v &&& S_IRWXG ∧ v.setWidth 16 <<< 0 = spread v &&& S_IRWXO := by
  decide

theorem classBits_spread (v : BitVec 3) (c : Char) : classBits (spread v) c = v := by
  unfold classBits
  split
  · revert v
    decide
  · split
    all_goals
      revert v
      decide

theorem classBits_or (m m' : Mode) (c : Char) :
    classBits (m ||| m') c = classBits m c ||| classBits m' c :=
  BitVec.extractLsb'_or ..

theorem classBits_and (m m' : Mode) (c : Char) :
    classBits (m &&& m') c = classBits m c &&& classBits m' c :=
  BitVec.extractLsb'_and ..

theorem classBits_low (m : Mode) (c : Char) : classBits (m &&& 0o777#16) c = classBits m c := by
  have hall : classBits 0o777#16 c = 7#3 := by
    unfold classBits
    split
    · decide
    · split <;> decide
  rw [classBits_and, hall]
  exact BitVec.and_allOnes

theorem classBits_clear (m m' : Mode) (c : Char) :
    classBits (m &&& ~~~m') c = classBits m c &&& ~~~classBits m' c := by
  have hnot : classBits (~~~m') c = ~~~classBits m' c := by
    unfold classBits
    split
    · exact BitVec.extractLsb'_not_of_lt (by decide)
    · split <;> exact BitVec.extractLsb'_not_of_lt (by decide)
  rw [classBits_and, hnot]

theorem or_spread_scope {m b scope : Mode} {v : BitVec 3} (c : Char)
    (hb : b &&& 0o777#16 = spread v) :
    let m' := m ||| (b &&& scope)
    m' ||| (spread (classBits m' c) &&& scope) =
      m ||| ((b ||| spread (classBits m c)) &&& scope) := by
  have hclass : classBits b c = v := by rw [← classBits_low, hb, classBits_spread]
  have hle := spread_and_le v (classBits scope c)
  dsimp only
  rw [classBits_or, classBits_and, hclass, spread_or]
  generalize spread (v &&& classBits scope c) = x at *
  generalize spread (classBits m c) = y at *
  rw [← hb] at hle
  ext i hi
  have hi' := congrArg (·[i]) hle
  simp only [BitVec.getElem_or, BitVec.getElem_and] at hi' ⊢
  grind

theorem clear_spread_scope {m b scope : Mode} {v : BitVec 3} (c : Char)
    (hb : b &&& 0o777#16 = spread v) :
    let m' := m &&& ~~~(b &&& scope)
    m' &&& ~~~(spread (classBits m' c) &&& scope) =
      m &&& ~~~((b ||| spread (classBits m c)) &&& scope) := by
  have hclass : classBits b c = v := by rw [← classBits_low, hb, classBits_spread]
  have hle := spread_and_le v (classBits scope c)
  dsimp only
  rw [classBits_clear, classBits_and, hclass, spread_clear]
  generalize spread (v &&& classBits scope c) = x at *
  generalize spread (classBits m c) = y at *
  rw [← hb] at hle
  ext i hi
  have hi' := congrArg (·[i]) hle
  simp only [BitVec.getElem_or, BitVec.getElem_and, BitVec.getElem_not] at hi' ⊢
  grind

end Bsdi.Setmode
