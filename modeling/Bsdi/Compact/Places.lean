import Bsdi.Compact.Codec
import Mathlib.Tactic.Ring

/-!
# The places of the tree

The sons of the nodes, in the order of `dict` and the left one first, are the places `0, 1, 2, …`
of the list order. Each holds a node or a character, which points back to it.
-/

namespace Bsdi.Compact

inductive Item
  | node (r : Nat)
  | chr (ch : Nat)
  deriving DecidableEq, Repr

def hasLeaf (flags : Nat) (rs : Bool) : Bool := flags.testBit (if rs then 2 else 3)

namespace Tree

variable (t : Tree)

abbrev side (k : Nat) : Bool := k % 2 = 1

def sonAt (k : Nat) : Son := t.son (k / 2) (side k)

def setAt (k : Nat) (s : Son) : Tree := t.setSon (k / 2) (side k) s

def cnt (k : Nat) : Int := (t.sonAt k).count.toInt

def leafAt (k : Nat) : Bool := hasLeaf (t.dict (k / 2)).fath.flags (side k)

def itemAt (k : Nat) : Item := if t.leafAt k then .chr (t.sonAt k).sp else .node (t.sonAt k).sp

def upOf : Item → Option Nat × Nat
  | .node r => ((t.dict r).fath.fp, (t.dict r).fath.flags % 2)
  | .chr ch => ((t.inp ch).fp, (t.inp ch).flags % 2)

def linkTo (k : Nat) : Option Nat × Nat := (some (k / 2), k % 2)

def size : Nat := 2 * (t.bottom + 1)

end Tree

section
variable {f : Nat} {rs ws : Bool}

theorem leafFlag_eq : leafFlag rs = 2 ^ (if rs then 2 else 3) := by cases rs <;> rfl

theorem leafFlag_ne_zero : f &&& leafFlag rs ≠ 0 ↔ hasLeaf f rs = true := by
  rw [leafFlag_eq, hasLeaf]
  generalize (if rs then 2 else 3) = i
  refine ⟨fun h => ?_, fun h hzero => ?_⟩
  · by_contra hbit
    refine h (Nat.eq_of_testBit_eq fun j => ?_)
    rw [Nat.testBit_and, Nat.testBit_two_pow, Nat.zero_testBit]
    by_cases hij : i = j
    · subst hij
      simpa using hbit
    · simp [hij]
  · have hbit := congrArg (·.testBit i) hzero
    simp [Nat.testBit_and, h] at hbit

@[simp] theorem hasLeaf_withFbit : hasLeaf (withFbit f ws) rs = hasLeaf f rs := by
  have hhalf : withFbit f ws / 2 = f / 2 := by
    cases ws <;> simp only [withFbit, Bool.toNat_true, Bool.toNat_false] <;> omega
  cases rs <;> simp [hasLeaf, Nat.testBit_succ, hhalf]

@[simp] theorem withFbit_mod : withFbit f ws % 2 = ws.toNat := by
  cases ws <;> simp only [withFbit, Bool.toNat_true, Bool.toNat_false] <;> omega

@[simp] theorem xor_leafFlag_mod : (f ^^^ leafFlag rs) % 2 = f % 2 := by
  have h : (f ^^^ leafFlag rs).testBit 0 = f.testBit 0 := by
    rw [Nat.testBit_xor, leafFlag_eq, Nat.testBit_two_pow]
    cases rs <;> simp
  rw [Nat.testBit_zero, Nat.testBit_zero, decide_eq_decide] at h
  omega

@[simp] theorem hasLeaf_xor (rs' : Bool) :
    hasLeaf (f ^^^ leafFlag rs) rs' = (hasLeaf f rs' ^^ (rs == rs')) := by
  rw [hasLeaf, hasLeaf, Nat.testBit_xor, leafFlag_eq, Nat.testBit_two_pow]
  cases rs <;> cases rs' <;> rfl

end

namespace Tree

variable {t : Tree} {i k r c ch : Nat} {s : Son} {f : Fpoint} {x : Index}

theorem son_setSon (rs rs' : Bool) :
    (t.setSon r rs s).son c rs' = if c = r ∧ rs' = rs then s else t.son c rs' := by
  by_cases hc : c = r
  · subst hc
    cases rs <;> cases rs' <;> simp [son, setSon, setNode]
  · simp [son, setSon, setNode, hc]

theorem place_eq_iff : i = k ↔ i / 2 = k / 2 ∧ side i = side k := by
  simp only [side, decide_eq_decide]
  omega

@[simp] theorem sonAt_setAt : (t.setAt k s).sonAt i = if i = k then s else t.sonAt i := by
  rw [sonAt, setAt, son_setSon]
  simp only [← place_eq_iff]
  rfl

@[simp] theorem fath_setAt : ((t.setAt k s).dict c).fath = (t.dict c).fath := by
  by_cases hc : c = k / 2
  · subst hc
    simp only [setAt, setSon, setNode, Function.update_self]
    split <;> rfl
  · simp [setAt, setSon, setNode, Function.update_of_ne hc]

@[simp] theorem inp_setAt : (t.setAt k s).inp = t.inp := rfl
@[simp] theorem dir_setAt : (t.setAt k s).dir = t.dir := rfl
@[simp] theorem head_setAt : (t.setAt k s).head = t.head := rfl
@[simp] theorem flist_setAt : (t.setAt k s).flist = t.flist := rfl
@[simp] theorem bottom_setAt : (t.setAt k s).bottom = t.bottom := rfl

@[simp] theorem sonAt_setFath : (t.setFath r f).sonAt i = t.sonAt i := by
  by_cases hi : i / 2 = r
  · subst hi
    simp [sonAt, son, setFath, setNode]
  · simp [sonAt, son, setFath, setNode, Function.update_of_ne hi]

@[simp] theorem fath_setFath :
    ((t.setFath r f).dict c).fath = if c = r then f else (t.dict c).fath := by
  by_cases hc : c = r
  · subst hc
    simp [setFath, setNode]
  · simp [setFath, setNode, hc]

@[simp] theorem inp_setFath : (t.setFath r f).inp = t.inp := rfl
@[simp] theorem dir_setFath : (t.setFath r f).dir = t.dir := rfl
@[simp] theorem head_setFath : (t.setFath r f).head = t.head := rfl
@[simp] theorem flist_setFath : (t.setFath r f).flist = t.flist := rfl
@[simp] theorem bottom_setFath : (t.setFath r f).bottom = t.bottom := rfl

@[simp] theorem sonAt_setIn : (t.setIn ch f).sonAt i = t.sonAt i := rfl
@[simp] theorem dict_setIn : (t.setIn ch f).dict = t.dict := rfl
@[simp] theorem inp_setIn : (t.setIn ch f).inp c = if c = ch then f else t.inp c := by
  rw [setIn]
  exact Function.update_apply ..
@[simp] theorem dir_setIn : (t.setIn ch f).dir = t.dir := rfl
@[simp] theorem head_setIn : (t.setIn ch f).head = t.head := rfl
@[simp] theorem flist_setIn : (t.setIn ch f).flist = t.flist := rfl
@[simp] theorem bottom_setIn : (t.setIn ch f).bottom = t.bottom := rfl

@[simp] theorem sonAt_setDir : (t.setDir r x).sonAt i = t.sonAt i := rfl
@[simp] theorem dict_setDir : (t.setDir r x).dict = t.dict := rfl
@[simp] theorem inp_setDir : (t.setDir r x).inp = t.inp := rfl
@[simp] theorem dir_setDir : (t.setDir r x).dir c = if c = r then x else t.dir c := by
  rw [setDir]
  exact Function.update_apply ..
@[simp] theorem head_setDir : (t.setDir r x).head = t.head := rfl
@[simp] theorem flist_setDir : (t.setDir r x).flist = t.flist := rfl
@[simp] theorem bottom_setDir : (t.setDir r x).bottom = t.bottom := rfl

end Tree

end Bsdi.Compact
