import Bsdi.Net.ResComp
import Mathlib.Logic.Relation

/-!
# What `dn_expand` reads and writes

`dn_expand` as a transition system: a state is where the loop takes the next length byte. A turn
of the loop reads some bytes of the message and writes some of the text.
-/

namespace Bsdi.Net

open Lib

/-- The loop of `dn_expand` before it takes a length byte. -/
structure Head where
  cp : Nat
  dn : List Byte
  len : Option Nat
  checked : Nat

/-- How a turn of the loop ends. -/
inductive Turn
  | next (h : Head)
  | done (r : Option (Nat × List Byte))

variable (mem : Nat → Byte) (eom length comp : Nat)

def Head.dotted (h : Head) : List Byte := if h.dn = [] then h.dn else h.dn ++ [dot]

def Head.Fits (h : Head) : Prop :=
  ¬(h.dn ≠ [] ∧ length ≤ h.dn.length) ∧ h.dotted.length + (mem h.cp).toNat < length

instance (h : Head) : Decidable (h.Fits mem length) := inferInstanceAs (Decidable (_ ∧ _))

def Counts (n : Byte) : Prop := n ≠ 0 ∧ n.toNat &&& indirMask = 0

instance : DecidablePred Counts := fun _ => inferInstanceAs (Decidable (_ ∧ _))

/-- The body of the loop of `dn_expand`. -/
def body (h : Head) : Turn :=
  let n := mem h.cp
  if n = 0 then
    let text := h.dn.takeWhile (· ≠ 0)
    .done (if text.any isspace then none else some (h.len.getD (h.cp + 1 - comp), text))
  else if n.toNat &&& indirMask = 0 then
    if h.Fits mem length then
      match expandLabel mem eom length n.toNat (h.cp + 1) h.dotted with
      | none => .done none
      | some dn => .next ⟨h.cp + 1 + n.toNat, dn, h.len, h.checked + n.toNat + 1⟩
    else .done none
  else if Indirect n then
    let cp := indirection n (mem (h.cp + 1))
    if eom ≤ cp then .done none
    else if eom ≤ h.checked + 2 then .done none
    else .next ⟨cp, h.dn, some (h.len.getD (h.cp + 2 - comp)), h.checked + 2⟩
  else .done none

def labelReads : Nat → Nat → List Byte → List Nat
  | 0, _, _ => []
  | n + 1, cp, dn =>
    let c := mem cp
    if c = dot ∧ length ≤ dn.length + n + 2 then [cp]
    else
      let dn := if c = dot then dn ++ [backslash, c] else dn ++ [c]
      if eom ≤ cp + 1 then [cp] else cp :: labelReads n (cp + 1) dn

def labelWrites : Nat → Nat → List Byte → List Nat
  | 0, _, _ => []
  | n + 1, cp, dn =>
    let c := mem cp
    if c = dot ∧ length ≤ dn.length + n + 2 then []
    else
      let places := if c = dot then [dn.length, dn.length + 1] else [dn.length]
      let dn := if c = dot then dn ++ [backslash, c] else dn ++ [c]
      if eom ≤ cp + 1 then places else places ++ labelWrites n (cp + 1) dn

def bodyReads (h : Head) : List Nat :=
  let n := mem h.cp
  h.cp ::
    if n = 0 then []
    else if n.toNat &&& indirMask = 0 then
      if h.Fits mem length then labelReads mem eom length n.toNat (h.cp + 1) h.dotted else []
    else if Indirect n then [h.cp + 1]
    else []

def bodyWrites (h : Head) : List Nat :=
  let n := mem h.cp
  if n = 0 then [h.dn.length]
  else if n.toNat &&& indirMask = 0 then
    if h.dn ≠ [] ∧ length ≤ h.dn.length then []
    else
      (if h.dn = [] then [] else [h.dn.length]) ++
        if length ≤ h.dotted.length + n.toNat then []
        else labelWrites mem eom length n.toNat (h.cp + 1) h.dotted
  else []

/-- The states of a run of `dn_expand`. -/
def Reached (h : Head) : Prop :=
  Relation.ReflTransGen (fun h h' => body mem eom length comp h = .next h') ⟨comp, [], none, 0⟩ h

/-- The loop of `__dn_skipname`. Every turn moves on, so `eom` turns suffice. -/
def skipLoop : Nat → Nat → Option Nat
  | 0, _ => none
  | fuel + 1, cp =>
    if eom ≤ cp then (if eom < cp then none else some cp)
    else
      let n := mem cp
      if n = 0 then some (cp + 1)
      else if n.toNat &&& indirMask = 0 then skipLoop fuel (cp + 1 + n.toNat)
      else if Indirect n then (if eom < cp + 2 then none else some (cp + 2))
      else none

/-- `__dn_skipname`: the size, or `none` for -1. -/
def dnSkipname : Option Nat := (skipLoop mem eom (eom - comp + 1) comp).map (· - comp)

variable {mem : Nat → Byte} {eom length comp : Nat}

theorem expandLoop_succ (fuel : Nat) (h : Head) :
    expandLoop mem eom length comp (fuel + 1) h.cp h.dn h.len h.checked =
      match body mem eom length comp h with
      | .done r => r
      | .next h' => expandLoop mem eom length comp fuel h'.cp h'.dn h'.len h'.checked := by
  rw [expandLoop, body]
  dsimp only
  by_cases h0 : mem h.cp = 0
  · rw [if_pos h0, if_pos h0]
  rw [if_neg h0, if_neg h0]
  by_cases hlabel : (mem h.cp).toNat &&& indirMask = 0
  · rw [if_pos hlabel, if_pos hlabel]
    by_cases hfits : h.Fits mem length
    · rw [if_pos hfits, if_neg hfits.1]
      refine (if_neg (Nat.not_le.2 hfits.2)).trans ?_
      change (match expandLabel mem eom length (mem h.cp).toNat (h.cp + 1) h.dotted with
        | none => none
        | some dn => expandLoop mem eom length comp fuel (h.cp + 1 + (mem h.cp).toNat) dn h.len
            (h.checked + (mem h.cp).toNat + 1)) = _
      cases expandLabel mem eom length (mem h.cp).toNat (h.cp + 1) h.dotted with
      | none => rfl
      | some dn => rfl
    · rw [if_neg hfits]
      by_cases hdot : h.dn ≠ [] ∧ length ≤ h.dn.length
      · rw [if_pos hdot]
      · rw [if_neg hdot]
        exact if_pos (Nat.not_lt.1 fun hroom => hfits ⟨hdot, hroom⟩)
  rw [if_neg hlabel, if_neg hlabel]
  by_cases hindir : Indirect (mem h.cp)
  · rw [if_pos hindir, if_pos hindir]
    by_cases hout : eom ≤ indirection (mem h.cp) (mem (h.cp + 1))
    · rw [if_pos hout, if_pos hout]
    rw [if_neg hout, if_neg hout]
    by_cases hchecked : eom ≤ h.checked + 2
    · rw [if_pos hchecked, if_pos hchecked]
    · rw [if_neg hchecked, if_neg hchecked]
  · rw [if_neg hindir, if_neg hindir]

theorem length_expanded {cp n : Nat} {dn : List Byte} (hroom : dn.length + (n + 1) < length)
    (hfull : ¬(mem cp = dot ∧ length ≤ dn.length + n + 2)) :
    (if mem cp = dot then dn ++ [backslash, mem cp] else dn ++ [mem cp]).length + n < length := by
  by_cases hdot : mem cp = dot
  · have hlt : ¬length ≤ dn.length + n + 2 := fun h => hfull ⟨hdot, h⟩
    rw [if_pos hdot, List.length_append, List.length_cons, List.length_singleton]
    omega
  · rw [if_neg hdot, List.length_append, List.length_singleton]
    omega

theorem length_expandLabel {n cp : Nat} {dn dn' : List Byte}
    (h : expandLabel mem eom length n cp dn = some dn') (hroom : dn.length + n < length) :
    dn'.length < length ∧ (0 < n → cp + n < eom) := by
  induction n generalizing cp dn with
  | zero =>
    obtain rfl := Option.some.inj h
    exact ⟨hroom, fun h => absurd h (Nat.lt_irrefl 0)⟩
  | succ n ih =>
    rw [expandLabel] at h
    dsimp only at h
    by_cases hfull : mem cp = dot ∧ length ≤ dn.length + n + 2
    · rw [if_pos hfull] at h
      cases h
    rw [if_neg hfull] at h
    by_cases hend : eom ≤ cp + 1
    · rw [if_pos hend] at h
      cases h
    rw [if_neg hend] at h
    obtain ⟨hdn, hle⟩ := ih h (length_expanded hroom hfull)
    refine ⟨hdn, fun _ => ?_⟩
    cases n with
    | zero => omega
    | succ n =>
      have := hle (Nat.succ_pos n)
      omega

theorem labelReads_lt {n cp : Nat} {dn : List Byte} (hcp : cp < eom) :
    ∀ a ∈ labelReads mem eom length n cp dn, a < eom := by
  induction n generalizing cp dn with
  | zero => simp [labelReads]
  | succ n ih =>
    rw [labelReads]
    dsimp only
    have hone : ∀ a ∈ [cp], a < eom := by simpa using hcp
    by_cases hfull : mem cp = dot ∧ length ≤ dn.length + n + 2
    · rw [if_pos hfull]
      exact hone
    rw [if_neg hfull]
    by_cases hend : eom ≤ cp + 1
    · rw [if_pos hend]
      exact hone
    · rw [if_neg hend]
      exact List.forall_mem_cons.2 ⟨hcp, ih (Nat.not_le.1 hend)⟩

theorem labelWrites_lt {n cp : Nat} {dn : List Byte} (hroom : dn.length + n < length) :
    ∀ w ∈ labelWrites mem eom length n cp dn, w < length := by
  induction n generalizing cp dn with
  | zero => simp [labelWrites]
  | succ n ih =>
    rw [labelWrites]
    dsimp only
    by_cases hfull : mem cp = dot ∧ length ≤ dn.length + n + 2
    · rw [if_pos hfull]
      simp
    rw [if_neg hfull]
    have hplaces : ∀ w ∈ if mem cp = dot then [dn.length, dn.length + 1] else [dn.length],
        w < length := by
      by_cases hdot : mem cp = dot
      · have hlt : ¬length ≤ dn.length + n + 2 := fun h => hfull ⟨hdot, h⟩
        rw [if_pos hdot]
        simp only [List.forall_mem_cons, List.not_mem_nil, false_imp_iff, implies_true, and_true]
        omega
      · rw [if_neg hdot]
        simp only [List.forall_mem_singleton]
        omega
    by_cases hend : eom ≤ cp + 1
    · rw [if_pos hend]
      exact hplaces
    · rw [if_neg hend]
      exact List.forall_mem_append.2 ⟨hplaces, ih (length_expanded hroom hfull)⟩

/-- The bounds that the loop keeps. -/
structure Head.Within (eom length : Nat) (h : Head) : Prop where
  cp : h.cp < eom
  dn : h.dn.length < length

theorem body_next {h h' : Head}
    (hbody : body mem eom length comp h = .next h') :
    (Counts (mem h.cp) ∧ h.Fits mem length ∧ h'.cp = h.cp + 1 + (mem h.cp).toNat ∧
        h'.len = h.len ∧ h'.checked = h.checked + (mem h.cp).toNat + 1 ∧ h'.dn.length < length ∧
        h'.cp < eom) ∨
      (Indirect (mem h.cp) ∧ h'.cp < eom ∧ h'.len = some (h.len.getD (h.cp + 2 - comp)) ∧
        h'.dn = h.dn ∧ h'.checked = h.checked + 2 ∧ h.checked + 2 < eom) := by
  rw [body] at hbody
  dsimp only at hbody
  by_cases h0 : mem h.cp = 0
  · rw [if_pos h0] at hbody
    cases hbody
  rw [if_neg h0] at hbody
  by_cases hlabel : (mem h.cp).toNat &&& indirMask = 0
  · rw [if_pos hlabel] at hbody
    by_cases hfits : h.Fits mem length
    · rw [if_pos hfits] at hbody
      cases hdn : expandLabel mem eom length (mem h.cp).toNat (h.cp + 1) h.dotted with
      | none =>
        rw [hdn] at hbody
        cases hbody
      | some dn =>
        rw [hdn] at hbody
        obtain rfl := Turn.next.inj hbody
        obtain ⟨hlen, hcp⟩ := length_expandLabel hdn hfits.2
        have hpos : 0 < (mem h.cp).toNat := Nat.pos_of_ne_zero fun h =>
          h0 (UInt8.toNat_inj.1 h)
        exact Or.inl ⟨⟨h0, hlabel⟩, hfits, rfl, rfl, rfl, hlen, hcp hpos⟩
    · rw [if_neg hfits] at hbody
      cases hbody
  rw [if_neg hlabel] at hbody
  by_cases hindir : Indirect (mem h.cp)
  · rw [if_pos hindir] at hbody
    split_ifs at hbody with hout hchecked
    obtain rfl := Turn.next.inj hbody
    exact Or.inr ⟨hindir, Nat.not_le.1 hout, rfl, rfl, rfl, Nat.not_le.1 hchecked⟩
  · rw [if_neg hindir] at hbody
    cases hbody

/-- A length byte or a pointer is the last byte of the message, and what follows is read. -/
def Astray (mem : Nat → Byte) (eom length : Nat) (h : Head) : Prop :=
  h.cp + 1 = eom ∧ (Counts (mem h.cp) ∧ h.Fits mem length ∨ Indirect (mem h.cp))

theorem Head.Within.next {h h' : Head} (hbody : body mem eom length comp h = .next h')
    (hwithin : h.Within eom length) : h'.Within eom length := by
  obtain ⟨-, -, -, -, -, hdn, hcp⟩ | ⟨-, hcp, -, hdn, -⟩ := body_next hbody
  · exact ⟨hcp, hdn⟩
  · exact ⟨hcp, hdn ▸ hwithin.dn⟩

theorem Reached.within {h : Head} (hreached : Reached mem eom length comp h) (hcomp : comp < eom)
    (hlength : 1 ≤ length) : h.Within eom length := by
  induction hreached with
  | refl => exact ⟨hcomp, hlength⟩
  | tail _ hbody ih => exact ih.next hbody

theorem not_indirect {n : Byte} (h : n.toNat &&& indirMask = 0) : ¬Indirect n := by
  rw [Indirect, h]
  decide

theorem reads_iff {h : Head} (hwithin : h.Within eom length) :
    (∀ a ∈ bodyReads mem eom length h, a < eom) ↔ ¬Astray mem eom length h := by
  have hcp := hwithin.cp
  rw [bodyReads, List.forall_mem_cons, and_iff_right hcp, Astray]
  by_cases h0 : mem h.cp = 0
  · have hnot : ¬Indirect (mem h.cp) := by
      rw [h0]
      decide
    rw [if_pos h0]
    exact iff_of_true (fun _ h => absurd h List.not_mem_nil) fun h =>
      h.2.elim (fun h => h.1.1 h0) hnot
  rw [if_neg h0]
  by_cases hlabel : (mem h.cp).toNat &&& indirMask = 0
  · have hplain : Counts (mem h.cp) := ⟨h0, hlabel⟩
    rw [if_pos hlabel]
    by_cases hfits : h.Fits mem length
    · rw [if_pos hfits]
      constructor
      · -- the first character of the label is read in any case
        rintro hreads ⟨hlast, -⟩
        obtain ⟨n, hn⟩ := Nat.exists_eq_succ_of_ne_zero fun h => h0 (UInt8.toNat_inj.1 h)
        refine absurd (hreads (h.cp + 1) ?_) (by omega)
        rw [hn, labelReads]
        dsimp only
        split_ifs <;> exact List.mem_cons_self
      · intro hnot
        refine labelReads_lt ?_
        have hne : h.cp + 1 ≠ eom := fun h => hnot ⟨h, Or.inl ⟨hplain, hfits⟩⟩
        omega
    · rw [if_neg hfits]
      simp [hfits, not_indirect hlabel]
  rw [if_neg hlabel]
  by_cases hindir : Indirect (mem h.cp)
  · rw [if_pos hindir, List.forall_mem_singleton, and_iff_left (Or.inr hindir)]
    omega
  · rw [if_neg hindir]
    simp [Counts, hlabel, hindir]

theorem writes_lt {h : Head} (hwithin : h.Within eom length) :
    ∀ w ∈ bodyWrites mem eom length h, w < length := by
  have hone : ∀ w ∈ [h.dn.length], w < length := by simpa using hwithin.dn
  rw [bodyWrites]
  by_cases h0 : mem h.cp = 0
  · rw [if_pos h0]
    exact hone
  rw [if_neg h0]
  by_cases hlabel : (mem h.cp).toNat &&& indirMask = 0
  · rw [if_pos hlabel]
    by_cases hdot : h.dn ≠ [] ∧ length ≤ h.dn.length
    · rw [if_pos hdot]
      simp
    rw [if_neg hdot]
    refine List.forall_mem_append.2 ⟨?_, ?_⟩
    · by_cases hnil : h.dn = []
      · rw [if_pos hnil]
        simp
      · rw [if_neg hnil]
        exact hone
    · by_cases hroom : length ≤ h.dotted.length + (mem h.cp).toNat
      · rw [if_pos hroom]
        simp
      · rw [if_neg hroom]
        exact labelWrites_lt (Nat.not_le.1 hroom)
  · rw [if_neg hlabel]
    simp

/-- The turns that are left. While pointers may be followed every turn adds two to `checked`;
then labels move `cp` on. -/
def Head.turns (eom : Nat) (h : Head) : Nat :=
  if h.checked + 2 < eom then (eom - h.checked + eom) / 2 + 1 else (eom - h.cp) / 2 + 1

theorem turns_next {h h' : Head} (hbody : body mem eom length comp h = .next h') :
    h'.turns eom < h.turns eom := by
  simp only [Head.turns]
  obtain ⟨hplain, -, hcp, -, hchecked, -, hlt⟩ | ⟨-, hlt, -, -, hchecked, hle⟩ := body_next hbody
  · have hpos : 0 < (mem h.cp).toNat := Nat.pos_of_ne_zero fun h => hplain.1 (UInt8.toNat_inj.1 h)
    split_ifs <;> omega
  · split_ifs <;> omega

theorem expandLoop_ends {fuel : Nat} {h : Head} (hreached : Reached mem eom length comp h)
    (hfuel : h.turns eom ≤ fuel) :
    ∃ h', Reached mem eom length comp h' ∧ body mem eom length comp h' =
      .done (expandLoop mem eom length comp fuel h.cp h.dn h.len h.checked) := by
  induction fuel generalizing h with
  | zero =>
    rw [Head.turns] at hfuel
    split_ifs at hfuel <;> omega
  | succ fuel ih =>
    rw [expandLoop_succ]
    cases hbody : body mem eom length comp h with
    | done r => exact ⟨h, hreached, hbody⟩
    | next h' =>
      have hlt := turns_next hbody
      exact ih (hreached.tail hbody) (by omega)

/-- What `__dn_skipname` does with the bytes that were passed: it comes to the same place, or has
ended behind the first pointer. -/
def Skips (mem : Nat → Byte) (eom comp : Nat) (h : Head) : Prop :=
  match h.len with
  | none => comp ≤ h.cp ∧ ∃ fuel, eom < h.cp + fuel ∧
      skipLoop mem eom (eom - comp + 1) comp = skipLoop mem eom fuel h.cp
  | some len => comp + len ≤ eom ∧ dnSkipname mem eom comp = some len

theorem skipLoop_plain {fuel cp : Nat} (hcp : cp < eom) (h : Counts (mem cp)) :
    skipLoop mem eom (fuel + 1) cp = skipLoop mem eom fuel (cp + 1 + (mem cp).toNat) := by
  rw [skipLoop, if_neg (Nat.not_le.2 hcp), if_neg h.1, if_pos h.2]

theorem skipLoop_indirect {fuel cp : Nat} (hcp : cp + 1 < eom) (h : Indirect (mem cp)) :
    skipLoop mem eom (fuel + 1) cp = some (cp + 2) := by
  have h0 : mem cp ≠ 0 := by
    intro h0
    rw [h0] at h
    exact absurd h (by decide)
  have hlabel : (mem cp).toNat &&& indirMask ≠ 0 := fun hlabel => not_indirect hlabel h
  rw [skipLoop, if_neg (by omega), if_neg h0, if_neg hlabel, if_pos h, if_neg (by omega)]

theorem skipLoop_zero {fuel cp : Nat} (hcp : cp < eom) (h : mem cp = 0) :
    skipLoop mem eom (fuel + 1) cp = some (cp + 1) := by
  rw [skipLoop, if_neg (Nat.not_le.2 hcp), if_pos h]

theorem Skips.next {h h' : Head} (hbody : body mem eom length comp h = .next h')
    (hskips : Skips mem eom comp h) (hwithin : h.Within eom length)
    (hastray : ¬Astray mem eom length h) : Skips mem eom comp h' := by
  unfold Skips at hskips ⊢
  have hcp := hwithin.cp
  obtain ⟨hplain, hfits, hcp', hlen, -⟩ | ⟨hindir, -, hlen, -⟩ := body_next hbody
  · rw [hlen]
    cases hsome : h.len with
    | some len =>
      rw [hsome] at hskips
      exact hskips
    | none =>
      rw [hsome] at hskips
      obtain ⟨hle, fuel, hfuel, hskip⟩ := hskips
      obtain ⟨fuel, rfl⟩ : ∃ f, fuel = f + 1 := ⟨fuel - 1, by omega⟩
      rw [skipLoop_plain hcp hplain, ← hcp'] at hskip
      exact ⟨by omega, fuel, by omega, hskip⟩
  · rw [hlen]
    cases hsome : h.len with
    | some len =>
      rw [hsome] at hskips
      exact hskips
    | none =>
      rw [hsome] at hskips
      obtain ⟨hle, fuel, hfuel, hskip⟩ := hskips
      obtain ⟨fuel, rfl⟩ : ∃ f, fuel = f + 1 := ⟨fuel - 1, by omega⟩
      have hlast : h.cp + 1 ≠ eom := fun heq => hastray ⟨heq, Or.inr hindir⟩
      rw [skipLoop_indirect (by omega) hindir] at hskip
      refine ⟨?_, ?_⟩
      · rw [Option.getD_none]
        omega
      · rw [dnSkipname, hskip]
        rfl

theorem Reached.skips {h : Head} (hreached : Reached mem eom length comp h) (hcomp : comp < eom)
    (hlength : 1 ≤ length)
    (hastray : ∀ h, Reached mem eom length comp h → ¬Astray mem eom length h) :
    Skips mem eom comp h := by
  induction hreached with
  | refl =>
    have hfuel : eom < comp + (eom - comp + 1) := by omega
    exact ⟨Nat.le_refl _, eom - comp + 1, hfuel, rfl⟩
  | tail hbefore hbody ih =>
    exact ih.next hbody (Reached.within hbefore hcomp hlength) (hastray _ hbefore)

theorem Skips.done {h : Head} {n : Nat} {text : List Byte} (hskips : Skips mem eom comp h)
    (hcp : h.cp < eom) (hbody : body mem eom length comp h = .done (some (n, text))) :
    comp + n ≤ eom ∧ dnSkipname mem eom comp = some n := by
  have h0 : mem h.cp = 0 ∧ h.len.getD (h.cp + 1 - comp) = n := by
    rw [body] at hbody
    dsimp only at hbody
    by_cases h0 : mem h.cp = 0
    · rw [if_pos h0] at hbody
      have hr := Turn.done.inj hbody
      split_ifs at hr
      exact ⟨h0, (Prod.mk.inj (Option.some.inj hr)).1⟩
    rw [if_neg h0] at hbody
    split_ifs at hbody
    · split at hbody <;> cases hbody
    all_goals cases hbody
  obtain ⟨h0, rfl⟩ := h0
  unfold Skips at hskips
  cases hsome : h.len with
  | some len =>
    rw [hsome] at hskips
    exact hskips
  | none =>
    rw [hsome] at hskips
    obtain ⟨hle, fuel, hfuel, hskip⟩ := hskips
    obtain ⟨fuel, rfl⟩ : ∃ f, fuel = f + 1 := ⟨fuel - 1, by omega⟩
    rw [skipLoop_zero hcp h0] at hskip
    refine ⟨?_, ?_⟩
    · rw [Option.getD_none]
      omega
    · rw [dnSkipname, hskip]
      rfl

/-- The run ends, stays in the message and in the text, and the size that it returns is that of
`__dn_skipname` and in the message. -/
structure Safe (mem : Nat → Byte) (eom comp length : Nat) : Prop where
  ends : ∃ h, Reached mem eom length comp h ∧
    body mem eom length comp h = .done (dnExpand mem eom comp length)
  reads : ∀ h, Reached mem eom length comp h → ∀ a ∈ bodyReads mem eom length h, a < eom
  writes : ∀ h, Reached mem eom length comp h → ∀ w ∈ bodyWrites mem eom length h, w < length
  size : ∀ n text, dnExpand mem eom comp length = some (n, text) →
    comp + n ≤ eom ∧ dnSkipname mem eom comp = some n

/-- `dn_expand` is safe unless it takes the last byte of the message for a length with room for
the label, or for a pointer. -/
theorem dnExpand_safe_iff (mem : Nat → Byte) (eom comp length : Nat) (hcomp : comp < eom)
    (hlength : 1 ≤ length) :
    Safe mem eom comp length ↔ ∀ h, Reached mem eom length comp h → ¬Astray mem eom length h := by
  constructor
  · exact fun hsafe h hreached =>
      (reads_iff (hreached.within hcomp hlength)).1 (hsafe.reads h hreached)
  · intro hastray
    have hturns : (Head.turns eom ⟨comp, [], none, 0⟩) ≤ eom + 2 := by
      simp only [Head.turns]
      split_ifs <;> omega
    have hstart : Reached mem eom length comp ⟨comp, [], none, 0⟩ := .refl
    obtain ⟨h, hreached, hbody⟩ := expandLoop_ends hstart hturns
    refine ⟨⟨h, hreached, hbody⟩, fun h hreached => ?_, fun h hreached => ?_, fun n text hn => ?_⟩
    · exact (reads_iff (hreached.within hcomp hlength)).2 (hastray h hreached)
    · exact writes_lt (hreached.within hcomp hlength)
    · have hdone : body mem eom length comp h = .done (some (n, text)) := hn ▸ hbody
      exact (hreached.skips hcomp hlength hastray).done (hreached.within hcomp hlength).cp hdone

theorem dnExpand_safe_root : Safe (fun _ => 0) 1 0 1 :=
  (dnExpand_safe_iff (fun _ => 0) 1 0 1 Nat.zero_lt_one (Nat.le_refl 1)).2 fun _ _ hastray =>
    hastray.2.elim (fun h => h.1.1 rfl) fun (h : Indirect 0) => absurd h (by decide)

/-- A pointer in the last byte: the byte behind the message is taken for its second half. -/
theorem dnExpand_last_byte :
    ¬∀ mem eom comp length, comp < eom → 1 ≤ length → Safe mem eom comp length := by
  intro h
  have hsafe := h (fun a => if a = 4 then 192 else 0) 5 4 1 (by decide) (by decide)
  exact absurd (hsafe.reads _ Relation.ReflTransGen.refl 5 (by decide)) (by decide)

end Bsdi.Net
