import Bsdi.Compact.Exchange
import Mathlib.Data.Finset.Insert
import Mathlib.Data.Nat.Bitwise

/-!
# The flag `SEEN`

`uptree` changes the pointers of characters, and leaves alone which of them are marked as seen.
-/

namespace Bsdi.Compact

theorem seen_withFbit {f : Nat} {ws : Bool} : withFbit f ws &&& seen = f &&& seen := by
  have hhalf : withFbit f ws / 2 = f / 2 := by
    cases ws <;> simp only [withFbit, Bool.toNat_true, Bool.toNat_false] <;> omega
  have hbit : (withFbit f ws).testBit 1 = f.testBit 1 := by
    rw [Nat.testBit_succ, Nat.testBit_succ, hhalf]
  have hseen : ∀ g : Nat, g &&& seen = (g.testBit 1).toNat * 2 := fun g => Nat.and_two_pow g 1
  rw [hseen, hseen, hbit]

namespace Tree

variable {t t' t'' : Tree}

def SameSeen (t t' : Tree) : Prop := ∀ x, (t'.inp x).flags &&& seen = (t.inp x).flags &&& seen

theorem SameSeen.trans (h : SameSeen t t') (h' : SameSeen t' t'') : SameSeen t t'' :=
  fun x => (h' x).trans (h x)

theorem SameSeen.of_inp (h : t'.inp = t.inp) : SameSeen t t' := fun x => by rw [h]

/-- Of the characters, those in `S` are marked as seen. -/
def Marked (t : Tree) (S : Finset Nat) : Prop := ∀ x < 256, (t.inp x).flags &&& seen ≠ 0 ↔ x ∈ S

theorem SameSeen.marked {S : Finset Nat} (h : SameSeen t t') (hmarked : Marked t S) :
    Marked t' S := fun x hx => by
  rw [h x]
  exact hmarked x hx

theorem sameSeen_exch {v x w : Nat} {vs ws : Bool} : SameSeen t (exch t v vs x w ws) := by
  rw [exch]
  split_ifs
  · intro c
    rw [inp_setIn]
    split_ifs with hc
    · rw [seen_withFbit, hc]
    · rfl
  · exact .of_inp rfl

theorem sameSeen_exchanged {v r qt : Nat} {vs rs : Bool} :
    SameSeen t (exchanged t v vs r rs qt) := by
  obtain ⟨s, hs⟩ : ∃ s, s = (t.setSon v vs { t.son v vs with sp := (t.son r rs).sp }).setSon r rs
    { (t.setSon v vs { t.son v vs with sp := (t.son r rs).sp }).son r rs with
      sp := (t.son v vs).sp } := ⟨_, rfl⟩
  have hinp : (exchanged t v vs r rs qt).inp =
      (exch (exch s v vs (t.son v vs).sp r rs) r rs (t.son r rs).sp v vs).inp := by
    rw [exchanged]
    dsimp only
    rw [← hs]
    split_ifs <;> rfl
  exact .trans (.trans (.of_inp (hs ▸ rfl)) sameSeen_exch) (.trans sameSeen_exch (.of_inp hinp))

theorem sameSeen_inner {rc : Int32} {fuel r : Nat} {rs : Bool} {p : Stop}
    (h : uptreeInner rc fuel t r rs = some (t', p)) : SameSeen t t' := by
  induction fuel generalizing t r rs with
  | zero => exact absurd h (by simp [uptreeInner])
  | succ fuel ih =>
    rw [uptreeInner] at h
    by_cases hfirst : ¬ rs = true ∧ r = 0
    · rw [if_pos hfirst] at h
      obtain ⟨rfl, -⟩ := Prod.mk.inj (Option.some.inj h)
      exact .of_inp rfl
    · rw [if_neg hfirst] at h
      dsimp only at h
      obtain ⟨qt, -, h⟩ := Option.bind_eq_some_iff.1 h
      obtain ⟨q, hq⟩ : ∃ q, q = (if rs = true then (t.dict r).left else (t.dict (r - 1)).right) :=
        ⟨_, rfl⟩
      rw [← hq] at h
      by_cases hle : rc ≤ q.count
      · rw [if_pos hle] at h
        obtain ⟨rfl, -⟩ := Prod.mk.inj (Option.some.inj h)
        exact .of_inp rfl
      · rw [if_neg hle] at h
        exact sameSeen_exchanged.trans (ih h)

theorem sameSeen_new {i : Nat} (h : t.new = some (i, t')) : SameSeen t t' := by
  obtain ⟨j, -, h⟩ := Option.bind_eq_some_iff.1 h
  obtain ⟨-, rfl⟩ := Prod.mk.inj (Option.some.inj h)
  exact .of_inp rfl

theorem sameSeen_index {rc : Int32} {rt : Nat} {p : Stop} (h : uptreeIndex t rc rt p = some t') :
    SameSeen t t' := by
  rw [uptreeIndex] at h
  dsimp only at h
  split at h
  · split at h
    · obtain rfl := Option.some.inj h
      exact .of_inp rfl
    · obtain ⟨st, -, h⟩ := Option.bind_eq_some_iff.1 h
      obtain rfl := Option.some.inj h
      exact .of_inp rfl
  · split at h
    · obtain ⟨⟨rt, t₁⟩, hnew, h⟩ := Option.bind_eq_some_iff.1 h
      obtain rfl := Option.some.inj h
      refine (sameSeen_new hnew).trans (.of_inp ?_)
      cases p.st <;> rfl
    · obtain rfl := Option.some.inj h
      exact .of_inp rfl

theorem sameSeen_outer {fuel r : Nat} {rs : Bool} (h : uptreeOuter fuel t r rs = some t') :
    SameSeen t t' := by
  induction fuel generalizing t r rs with
  | zero => exact absurd h (by simp [uptreeOuter])
  | succ fuel ih =>
    rw [uptreeOuter] at h
    obtain ⟨rt, -, h⟩ := Option.bind_eq_some_iff.1 h
    obtain ⟨⟨t₁, p⟩, hinner, h⟩ := Option.bind_eq_some_iff.1 h
    obtain ⟨t₂, hindex, h⟩ := Option.bind_eq_some_iff.1 h
    have hstep : SameSeen t t₁ := fun x => sameSeen_inner hinner x
    refine (hstep.trans (sameSeen_index hindex)).trans ?_
    dsimp only at h
    split at h
    · obtain ⟨dirp, -, h⟩ := Option.bind_eq_some_iff.1 h
      obtain rfl := Option.some.inj h
      exact .of_inp rfl
    · exact ih h

theorem sameSeen_uptree {ch : Nat} (h : uptree t ch = some t') : SameSeen t t' := by
  obtain ⟨r, -, h⟩ := Option.bind_eq_some_iff.1 h
  exact sameSeen_outer h

end Tree

end Bsdi.Compact
