import Bsdi.Gen.Fnmatch

/-!
# The language of a pattern

What a pattern stands for, with the rules for periods and slashes, and what `fnmatch` makes of it.
-/

namespace Bsdi.Gen

inductive Elem
  | char (c : Byte)
  | quoted (c : Byte)
  | any
  | star
  | set (negate : Bool) (ranges : List (Byte × Byte))
  /-- A bracket that is not closed. -/
  | never

/-- The element matches one character, which is `c`. -/
def Elem.Takes : Elem → Byte → Prop
  | any, _ => True
  | set negate ranges, c =>
    (∃ r ∈ ranges, schar r.1 ≤ schar c ∧ schar c ≤ schar r.2) ↔ negate = false
  | _, _ => False

variable (fl : Flags)

/-! ### Syntax -/

/-- The end of a range that begins with `c`. A character is a range of one. -/
def rangeEnd (c : Byte) (pattern : List Byte) : Option (Byte × List Byte) :=
  if rangeFollows pattern then rangeChar fl pattern.tail else some (c, pattern)

def ranges : Nat → List Byte → Option (List (Byte × Byte) × List Byte)
  | 0, _ => none
  | fuel + 1, pattern =>
    if pattern.head? = some closing then some ([], pattern.tail)
    else do
      let (c, pattern) ← rangeChar fl pattern
      let (c2, pattern) ← rangeEnd fl c pattern
      let (rs, pattern) ← ranges fuel pattern
      some ((c, c2) :: rs, pattern)

def listOf (neg : Byte → Bool) (pattern : List Byte) : List Byte :=
  if pattern.head?.any neg then pattern.tail else pattern

/-- The elements of a pattern; stars in a row are one. `neg` tells which characters negate a
bracket expression. -/
def parseLoop (neg : Byte → Bool) : Nat → List Byte → List Elem
  | 0, _ => []
  | _ + 1, [] => []
  | fuel + 1, c :: pattern =>
    if c = question then .any :: parseLoop neg fuel pattern
    else if c = asterisk then .star :: parseLoop neg fuel (pattern.dropWhile (· = asterisk))
    else if c = bracket then
      match ranges fl (pattern.length + 1) (listOf neg pattern) with
      | none => [.never]
      | some (rs, rest) => .set (pattern.head?.any neg) rs :: parseLoop neg fuel rest
    else if c = backslash ∧ fl.noescape = false then
      match pattern with
      | [] => [.char backslash]
      | c :: pattern => .quoted c :: parseLoop neg fuel pattern
    else .char c :: parseLoop neg fuel pattern

def parse (neg : Byte → Bool) (pattern : List Byte) : List Elem :=
  parseLoop fl neg (pattern.length + 1) pattern

def negation (c : Byte) : Bool := c = bang || c = circumflex

/-! ### Languages -/

/-- The character `c` behind `prev` is a period at the start of the string, or of a component. -/
def Leads (prev : Option Byte) (c : Byte) : Prop :=
  c = dot ∧ (prev = none ∨ fl.pathname = true ∧ prev = some slash)

/-- A wildcard may match the character `c` behind `prev`. -/
def Free (prev : Option Byte) (c : Byte) : Prop :=
  ¬(fl.pathname = true ∧ c = slash) ∧ ¬(fl.period = true ∧ Leads fl prev c)

/-- The string is in the language of the pattern, and its leading periods and its slashes are
matched by characters of the pattern. -/
inductive Obeys : Option Byte → List Elem → List Byte → Prop
  | nil (prev : Option Byte) : Obeys prev [] []
  | char {prev : Option Byte} {c : Byte} {p : List Elem} {s : List Byte}
    (h : Obeys (some c) p s) : Obeys prev (.char c :: p) (c :: s)
  | quoted {prev : Option Byte} {c : Byte} {p : List Elem} {s : List Byte}
    (h : Obeys (some c) p s) : Obeys prev (.quoted c :: p) (c :: s)
  | one {prev : Option Byte} {e : Elem} {c : Byte} {p : List Elem} {s : List Byte}
    (takes : e.Takes c) (free : Free fl prev c) (h : Obeys (some c) p s) :
    Obeys prev (e :: p) (c :: s)
  | stop {prev : Option Byte} {p : List Elem} {s : List Byte} (h : Obeys prev p s) :
    Obeys prev (.star :: p) s
  | more {prev : Option Byte} {c : Byte} {p : List Elem} {s : List Byte}
    (free : Free fl prev c) (h : Obeys (some c) (.star :: p) s) : Obeys prev (.star :: p) (c :: s)

def keeps : List Elem → Bool
  | [] => true
  | .char c :: _ => c = slash && fl.pathname
  | _ => false

/-- The strings that `fnmatch` accepts: brackets do not look at periods, and nothing does behind
a star that is followed by more than a slash. `rule` tells that periods are looked at. -/
inductive Accepted : Bool → Option Byte → List Elem → List Byte → Prop
  | nil (rule : Bool) (prev : Option Byte) : Accepted rule prev [] []
  | char {rule : Bool} {prev : Option Byte} {c : Byte} {p : List Elem} {s : List Byte}
    (h : Accepted rule (some c) p s) : Accepted rule prev (.char c :: p) (c :: s)
  | quoted {rule : Bool} {prev : Option Byte} {c : Byte} {p : List Elem} {s : List Byte}
    (h : Accepted rule (some c) p s) : Accepted rule prev (.quoted c :: p) (c :: s)
  | any {rule : Bool} {prev : Option Byte} {c : Byte} {p : List Elem} {s : List Byte}
    (free : Free { fl with period := rule } prev c) (h : Accepted rule (some c) p s) :
    Accepted rule prev (.any :: p) (c :: s)
  | set {rule negate : Bool} {rs : List (Byte × Byte)} {prev : Option Byte} {c : Byte}
    {p : List Elem} {s : List Byte} (takes : (Elem.set negate rs).Takes c)
    (apart : ¬(fl.pathname = true ∧ c = slash)) (h : Accepted rule (some c) p s) :
    Accepted rule prev (.set negate rs :: p) (c :: s)
  | star {rule : Bool} {prev : Option Byte} {p : List Elem} {s t : List Byte}
    (first : ∀ c ∈ (t ++ s).head?, ¬(rule = true ∧ Leads fl prev c))
    (apart : fl.pathname = true → slash ∉ t)
    (h : Accepted (rule && keeps fl p) (t.getLast?.or prev) p s) :
    Accepted rule prev (.star :: p) (t ++ s)

variable {fl}

/-! ### Brackets -/

theorem schar_inj {a b : Byte} : schar a = schar b ↔ a = b := by
  constructor
  · intro h
    have ha := a.toNat_lt
    have hb := b.toNat_lt
    have hlt : ∀ c : Byte, c < 128 ↔ c.toNat < 128 := fun c => UInt8.lt_iff_toNat_lt
    rw [← UInt8.toNat_inj]
    simp only [schar, hlt] at h
    split_ifs at h <;> omega
  · rintro rfl
    rfl

theorem rangeChar_length {c : Byte} {p rest : List Byte} (h : rangeChar fl p = some (c, rest)) :
    rest.length < p.length := by
  unfold rangeChar at h
  cases p with
  | nil => cases h
  | cons d p =>
    dsimp only at h
    split_ifs at h with hq
    · cases p with
      | nil => cases h
      | cons d p =>
        obtain ⟨rfl, rfl⟩ := Prod.mk.inj (Option.some.inj h)
        simp only [List.length_cons]
        omega
    · obtain ⟨rfl, rfl⟩ := Prod.mk.inj (Option.some.inj h)
      simp only [List.length_cons]
      omega

theorem rangeLoop_eq (test : Byte) (fuel : Nat) (p : List Byte) (ok : Bool) :
    rangeLoop fl test fuel p ok = (ranges fl fuel p).map fun r =>
      (ok || r.1.any fun r => schar r.1 ≤ schar test && schar test ≤ schar r.2, r.2) := by
  induction fuel generalizing p ok with
  | zero => rfl
  | succ fuel ih =>
    rw [rangeLoop, ranges]
    by_cases hclose : p.head? = some closing
    · rw [if_pos hclose, if_pos hclose]
      simp
    rw [if_neg hclose, if_neg hclose]
    cases hc : rangeChar fl p with
    | none => rfl
    | some r =>
      obtain ⟨c, p⟩ := r
      dsimp only
      rw [Option.bind_eq_bind, Option.bind_some]
      dsimp only
      rw [rangeEnd]
      by_cases hf : rangeFollows p = true
      · rw [if_pos hf, if_pos hf]
        cases hc2 : rangeChar fl p.tail with
        | none => rfl
        | some r =>
          obtain ⟨c2, p⟩ := r
          dsimp only
          rw [ih]
          cases hr : ranges fl fuel p with
          | none => simp [hr]
          | some r => simp [hr, Bool.or_assoc]
      · rw [if_neg hf, if_neg hf, ih]
        have hsame : (c == test) = (decide (schar c ≤ schar test) && decide (schar test ≤ schar c))
          := by
          rw [Bool.eq_iff_iff, beq_iff_eq, Bool.and_eq_true, decide_eq_true_eq, decide_eq_true_eq,
            ← schar_inj]
          omega
        rw [hsame]
        cases hr : ranges fl fuel p with
        | none => simp [hr]
        | some r => simp [hr, Bool.or_assoc]

theorem ranges_length {fuel : Nat} {p rest : List Byte} {rs : List (Byte × Byte)}
    (h : ranges fl fuel p = some (rs, rest)) : rest.length < p.length := by
  induction fuel generalizing p rs with
  | zero => cases h
  | succ fuel ih =>
    rw [ranges] at h
    by_cases hclose : p.head? = some closing
    · rw [if_pos hclose] at h
      obtain ⟨-, rfl⟩ := Prod.mk.inj (Option.some.inj h)
      cases p with
      | nil => cases hclose
      | cons c p => exact Nat.lt_succ_self _
    · rw [if_neg hclose] at h
      simp only [Option.bind_eq_bind, Option.bind_eq_some_iff, Prod.exists] at h
      obtain ⟨c, p₁, hc, c2, p₂, hc2, rs', p₃, hr, h⟩ := h
      obtain ⟨-, rfl⟩ := Prod.mk.inj (Option.some.inj h)
      have h₁ := rangeChar_length hc
      have h₃ := ih hr
      rw [rangeEnd] at hc2
      by_cases hf : rangeFollows p₁ = true
      · rw [if_pos hf] at hc2
        have h₂ := rangeChar_length hc2
        rw [List.length_tail] at h₂
        omega
      · rw [if_neg hf] at hc2
        obtain ⟨-, rfl⟩ := Prod.mk.inj (Option.some.inj hc2)
        omega

theorem length_rangeList_le (p : List Byte) : (rangeList p).length ≤ p.length := by
  rw [rangeList]
  split_ifs
  · rw [List.length_tail]
    exact Nat.sub_le _ _
  · exact Nat.le_refl _

theorem negates_eq (p : List Byte) : negates p = p.head?.any negation := by
  cases p with
  | nil => rfl
  | cons c p => simp [negates, negation]

theorem rangeList_eq (p : List Byte) : rangeList p = listOf negation p := by
  rw [rangeList, listOf, negates_eq]

theorem rangematch_eq_some {p rest : List Byte} {c : Byte} :
    rangematch fl p c = some rest ↔
      ∃ rs, ranges fl (p.length + 1) (listOf negation p) = some (rs, rest) ∧
        (Elem.set (p.head?.any negation) rs).Takes c := by
  rw [rangematch, rangeLoop_eq, rangeList_eq, negates_eq]
  cases hr : ranges fl (p.length + 1) (listOf negation p) with
  | none => simp
  | some r =>
    obtain ⟨rs, rest'⟩ := r
    have hany : (rs.any fun r => decide (schar r.1 ≤ schar c) && decide (schar c ≤ schar r.2)) =
      true ↔
        ∃ r ∈ rs, schar r.1 ≤ schar c ∧ schar c ≤ schar r.2 := by
      simp [List.any_eq_true]
    rw [Option.map_some, Bool.false_or]
    dsimp only
    generalize (rs.any fun r => decide (schar r.1 ≤ schar c) && decide (schar c ≤ schar r.2)) = ok
      at hany
    constructor
    · intro h
      split_ifs at h with hneg
      obtain rfl := Option.some.inj h
      refine ⟨rs, rfl, hany.symm.trans ?_⟩
      cases ok <;> cases hn : p.head?.any negation <;> simp_all
    · rintro ⟨rs', heq, htakes⟩
      obtain ⟨rfl, rfl⟩ := Prod.mk.inj (Option.some.inj heq)
      have hiff := hany.trans htakes
      refine if_neg fun hneg => ?_
      rw [hneg] at hiff
      cases hn : p.head?.any negation <;> simp [hn] at hiff

/-! ### What is accepted -/

section

variable {rule : Bool} {prev : Option Byte} {c : Byte} {p : List Elem} {s : List Byte}

theorem accepted_nil : Accepted fl rule prev [] s ↔ s = [] := by
  constructor
  · rintro ⟨⟩
    rfl
  · rintro rfl
    exact .nil _ _

theorem accepted_char : Accepted fl rule prev (.char c :: p) s ↔
    ∃ s', s = c :: s' ∧ Accepted fl rule (some c) p s' := by
  constructor
  · rintro ⟨⟩
    exact ⟨_, rfl, ‹_›⟩
  · rintro ⟨s', rfl, h⟩
    exact .char h

theorem accepted_quoted : Accepted fl rule prev (.quoted c :: p) s ↔
    ∃ s', s = c :: s' ∧ Accepted fl rule (some c) p s' := by
  constructor
  · rintro ⟨⟩
    exact ⟨_, rfl, ‹_›⟩
  · rintro ⟨s', rfl, h⟩
    exact .quoted h

theorem accepted_any : Accepted fl rule prev (.any :: p) s ↔
    ∃ c s', s = c :: s' ∧ Free { fl with period := rule } prev c ∧
      Accepted fl rule (some c) p s' := by
  constructor
  · rintro ⟨⟩
    exact ⟨_, _, rfl, ‹_›, ‹_›⟩
  · rintro ⟨c, s', rfl, hfree, h⟩
    exact .any hfree h

theorem accepted_set {negate : Bool} {rs : List (Byte × Byte)} :
    Accepted fl rule prev (.set negate rs :: p) s ↔
      ∃ c s', s = c :: s' ∧ (Elem.set negate rs).Takes c ∧ ¬(fl.pathname = true ∧ c = slash) ∧
        Accepted fl rule (some c) p s' := by
  constructor
  · rintro ⟨⟩
    exact ⟨_, _, rfl, ‹_›, ‹_›, ‹_›⟩
  · rintro ⟨c, s', rfl, htakes, hapart, h⟩
    exact .set htakes hapart h

theorem not_accepted_never : ¬Accepted fl rule prev (.never :: p) s := by
  rintro ⟨⟩

theorem accepted_star : Accepted fl rule prev (.star :: p) s ↔
    (∀ c ∈ s.head?, ¬(rule = true ∧ Leads fl prev c)) ∧ ∃ t s', s = t ++ s' ∧
      (fl.pathname = true → slash ∉ t) ∧
      Accepted fl (rule && keeps fl p) (t.getLast?.or prev) p s' := by
  constructor
  · rintro ⟨⟩
    exact ⟨‹_›, _, _, rfl, ‹_›, ‹_›⟩
  · rintro ⟨hfirst, t, s', rfl, hapart, h⟩
    exact .star hfirst hapart h

theorem Accepted.any_prev {prev' : Option Byte} (h : Accepted fl rule prev p s)
    (hrule : rule = false) : Accepted fl rule prev' p s := by
  induction h generalizing prev' with
  | nil => exact .nil _ _
  | char _ ih => exact .char (ih hrule)
  | quoted _ ih => exact .quoted (ih hrule)
  | any free _ ih => exact .any ⟨free.1, fun h => by simp [hrule] at h⟩ (ih hrule)
  | set takes apart _ ih => exact .set takes apart (ih hrule)
  | star _ apart _ ih =>
    exact .star (fun _ _ h => by simp [hrule] at h) apart (ih (by simp [hrule]))

end

/-! ### The loops -/

theorem leadingPeriod_iff {rule : Bool} {prev : Option Byte} {s : List Byte} :
    leadingPeriod { fl with period := rule } prev s = true ↔
      ∃ c ∈ s.head?, rule = true ∧ Leads fl prev c := by
  cases s with
  | nil => simp [leadingPeriod]
  | cons c s =>
    simp only [leadingPeriod, List.head?_cons, Option.some.injEq, Bool.and_eq_true,
      decide_eq_true_eq, Bool.or_eq_true, Option.mem_def, exists_eq_left', Leads]
    tauto

theorem toSlash_eq_none {prev : Option Byte} {s : List Byte} :
    toSlash prev s = none ↔ slash ∉ s := by
  induction s generalizing prev with
  | nil => simp [toSlash]
  | cons c s ih =>
    rw [toSlash]
    by_cases hc : c = slash
    · simp [hc]
    · rw [if_neg hc, ih, List.mem_cons, not_or]
      exact ⟨fun h => ⟨fun h' => hc h'.symm, h⟩, fun h => h.2⟩

theorem toSlash_append {prev : Option Byte} {s t : List Byte} (ht : slash ∉ t) :
    toSlash prev (t ++ slash :: s) = some (t.getLast?.or prev, slash :: s) := by
  induction t generalizing prev with
  | nil => simp [toSlash]
  | cons c t ih =>
    rw [List.mem_cons, not_or] at ht
    rw [List.cons_append, toSlash, if_neg fun h => ht.1 h.symm, ih ht.2]
    cases t with
    | nil => rfl
    | cons d t =>
      rw [List.getLast?_cons_cons]
      obtain ⟨x, hx⟩ := Option.ne_none_iff_exists'.1 (List.getLast?_eq_none_iff.not.2
        (List.cons_ne_nil d t))
      rw [hx]
      rfl

theorem exists_component {s : List Byte} (h : slash ∈ s) :
    ∃ t s', s = t ++ slash :: s' ∧ slash ∉ t := by
  obtain ⟨t, s', rfl, ht⟩ := List.eq_append_cons_of_mem h
  exact ⟨t, s', rfl, ht⟩

theorem starLoop_iff {rest : List Byte → Bool} {s : List Byte} : starLoop fl rest s = true ↔
    ∃ t s', s = t ++ s' ∧ s' ≠ [] ∧ (fl.pathname = true → slash ∉ t) ∧ rest s' = true := by
  induction s with
  | nil =>
    simp only [starLoop, Bool.false_eq_true, false_iff]
    rintro ⟨t, s', heq, hne, -⟩
    exact hne (List.append_eq_nil_iff.1 heq.symm).2
  | cons c s ih =>
    rw [starLoop, Bool.or_eq_true, Bool.and_eq_true, ih]
    constructor
    · rintro (h | ⟨hc, t, s', rfl, hne, ht, h⟩)
      · exact ⟨[], c :: s, rfl, List.cons_ne_nil _ _, fun _ => List.not_mem_nil, h⟩
      · refine ⟨c :: t, s', rfl, hne, fun hp => ?_, h⟩
        simp only [hp, Bool.and_true, Bool.not_eq_true', beq_eq_false_iff_ne] at hc
        exact List.not_mem_cons_of_ne_of_not_mem hc.symm (ht hp)
    · rintro ⟨t, s', heq, hne, ht, h⟩
      cases t with
      | nil =>
        rw [heq]
        exact Or.inl h
      | cons d t =>
        obtain ⟨rfl, rfl⟩ := List.cons.inj heq
        refine Or.inr ⟨?_, t, s', rfl, hne, fun hp hm => ht hp (List.mem_cons_of_mem _ hm), h⟩
        cases hp : fl.pathname with
        | false => simp
        | true =>
          have := ht hp
          rw [List.mem_cons, not_or] at this
          simpa using fun h => this.1 h.symm

theorem parseLoop_behind {fuel : Nat} {q p : List Byte} (hp : q.dropWhile (· = asterisk) = p)
    (hne : p ≠ []) (hfuel : p.length < fuel) :
    (∀ rule prev, ¬Accepted fl rule prev (parseLoop fl negation fuel p) []) ∧
      keeps fl (parseLoop fl negation fuel p) = (p.head? = some slash && fl.pathname) := by
  obtain ⟨fuel, rfl⟩ : ∃ f, fuel = f + 1 := ⟨fuel - 1, by omega⟩
  obtain ⟨c, p, rfl⟩ := List.exists_cons_of_ne_nil hne
  have hstar : c ≠ asterisk := fun hc => by
    have hnot := List.head?_dropWhile_not (fun x => decide (x = asterisk)) q
    rw [hp] at hnot
    simp [hc] at hnot
  rw [parseLoop.eq_def]
  dsimp only
  by_cases h₁ : c = question
  · have hslash : question ≠ slash := by decide
    subst h₁
    exact ⟨fun _ _ => by simp [accepted_any], by simp [keeps, hslash]⟩
  rw [if_neg h₁, if_neg hstar]
  by_cases h₂ : c = bracket
  · have hslash : bracket ≠ slash := by decide
    subst h₂
    rw [if_pos rfl]
    cases ranges fl (p.length + 1) (listOf negation p) with
    | none => exact ⟨fun _ _ => not_accepted_never, by simp [keeps, hslash]⟩
    | some r => exact ⟨fun _ _ => by simp [accepted_set], by simp [keeps, hslash]⟩
  rw [if_neg h₂]
  by_cases h₃ : c = backslash ∧ fl.noescape = false
  · have hslash : backslash ≠ slash := by decide
    rw [if_pos h₃, h₃.1]
    cases p with
    | nil => exact ⟨fun _ _ => by simp [accepted_char], by simp [keeps, hslash]⟩
    | cons d p => exact ⟨fun _ _ => by simp [accepted_quoted], by simp [keeps, hslash]⟩
  · rw [if_neg h₃]
    exact ⟨fun _ _ => by simp [accepted_char], by simp [keeps]⟩

theorem component_unique {s s' t t' : List Byte} (h : t ++ slash :: s = t' ++ slash :: s')
    (ht : slash ∉ t) (ht' : slash ∉ t') : t = t' ∧ s = s' := by
  induction t generalizing t' with
  | nil =>
    cases t' with
    | nil => exact ⟨rfl, (List.cons.inj h).2⟩
    | cons c t' => exact absurd (List.mem_cons.2 (Or.inl (List.cons.inj h).1)) ht'
  | cons c t ih =>
    cases t' with
    | nil => exact absurd (List.mem_cons.2 (Or.inl (List.cons.inj h).1.symm)) ht
    | cons c' t' =>
      rw [List.mem_cons, not_or] at ht ht'
      obtain ⟨rfl, htail⟩ := List.cons.inj h
      obtain ⟨rfl, rfl⟩ := ih htail ht.2 ht'.2
      exact ⟨rfl, rfl⟩

theorem ranges_period (rule : Bool) (fuel : Nat) (p : List Byte) :
    ranges { fl with period := rule } fuel p = ranges fl fuel p := by
  induction fuel generalizing p with
  | zero => rfl
  | succ fuel ih =>
    simp only [ranges, ih]
    rfl

theorem rangematch_period (rule : Bool) (p : List Byte) (c : Byte) :
    rangematch { fl with period := rule } p c = rangematch fl p c := by
  rw [rangematch, rangematch, rangeLoop_eq, rangeLoop_eq, ranges_period]

theorem free_iff {rule : Bool} {prev : Option Byte} {c : Byte} {s : List Byte} :
    (c == slash && fl.pathname || leadingPeriod { fl with period := rule } prev (c :: s)) = false ↔
      Free { fl with period := rule } prev c := by
  rw [← Bool.not_eq_true, Bool.or_eq_true, leadingPeriod_iff, Bool.and_eq_true, beq_iff_eq, Free]
  simp only [List.head?_cons, Option.mem_def, Option.some.injEq, exists_eq_left']
  exact ⟨fun h => ⟨fun h' => h (Or.inl ⟨h'.2, h'.1⟩), fun h' => h (Or.inr h')⟩,
    fun h h' => h'.elim (fun h' => h.1 ⟨h'.2, h'.1⟩) h.2⟩

section

variable {rule : Bool} {fuel fuel' : Nat} {pattern p string : List Byte} {prev : Option Byte}

theorem fnmatch_star {f : Flags → List Byte → Option Byte → List Byte → Bool}
    (hp : pattern.dropWhile (· = asterisk) = p) (hfuel : p.length < fuel)
    (ih : ∀ rule prev s, f { fl with period := rule } p prev s = true ↔
      Accepted fl rule prev (parseLoop fl negation fuel p) s) :
    (if leadingPeriod { fl with period := rule } prev string = true then false
      else if p = [] then !(fl.pathname && string.contains slash)
      else if p.head? = some slash ∧ fl.pathname = true then
        match toSlash prev string with
        | none => false
        | some (prev, string) => f { fl with period := rule } p prev string
      else starLoop { fl with period := rule } (f { fl with period := false } p none) string) =
        true ↔
      Accepted fl rule prev (.star :: parseLoop fl negation fuel p) string := by
  rw [accepted_star]
  by_cases hlead : leadingPeriod { fl with period := rule } prev string = true
  · rw [if_pos hlead]
    obtain ⟨c, hc, hleads⟩ := leadingPeriod_iff.1 hlead
    exact ⟨fun h => absurd h Bool.false_ne_true, fun h => absurd hleads (h.1 c hc)⟩
  rw [if_neg hlead, and_iff_right fun c hc hleads => hlead (leadingPeriod_iff.2 ⟨c, hc, hleads⟩)]
  by_cases hnil : p = []
  · -- the star is the last one
    rw [if_pos hnil, hnil]
    have hparse : parseLoop fl negation fuel [] = [] := by cases fuel <;> rfl
    simp only [hparse, accepted_nil]
    constructor
    · intro h
      refine ⟨string, [], (List.append_nil _).symm, fun hpath hmem => ?_, rfl⟩
      simp [hpath, hmem] at h
    · rintro ⟨t, s', rfl, ht, rfl⟩
      cases hpath : fl.pathname with
      | false => rfl
      | true => simpa using ht hpath
  rw [if_neg hnil]
  obtain ⟨hsome, hkeeps⟩ := @parseLoop_behind fl fuel pattern p hp hnil hfuel
  rw [hkeeps]
  by_cases hslash : p.head? = some slash ∧ fl.pathname = true
  · -- up to the next slash
    rw [if_pos hslash]
    have hkeep : (decide (p.head? = some slash) && fl.pathname) = true := by simp [hslash]
    rw [hkeep, Bool.and_true]
    obtain ⟨P, hP⟩ : ∃ P, parseLoop fl negation fuel p = .char slash :: P := by
      rw [hkeep] at hkeeps
      cases hparse : parseLoop fl negation fuel p with
      | nil => exact absurd (hparse ▸ Accepted.nil true none) (hsome true none)
      | cons e P =>
        cases e <;> simp_all [keeps]
    by_cases hmem : slash ∈ string
    · obtain ⟨t, s, rfl, ht⟩ := exists_component hmem
      rw [toSlash_append ht]
      dsimp only
      rw [ih]
      constructor
      · exact fun h => ⟨t, _, rfl, fun _ => ht, h⟩
      · rintro ⟨t', s', heq, ht', h⟩
        rw [hP] at h
        obtain ⟨s'', rfl, -⟩ := accepted_char.1 h
        obtain ⟨rfl, rfl⟩ := component_unique heq ht (ht' hslash.2)
        rwa [hP]
    · rw [toSlash_eq_none.2 hmem]
      refine ⟨fun h => absurd h Bool.false_ne_true, ?_⟩
      rintro ⟨t', s', rfl, -, h⟩
      rw [hP] at h
      obtain ⟨s'', rfl, -⟩ := accepted_char.1 h
      exact absurd (List.mem_append_right _ List.mem_cons_self) hmem
  · -- every place is tried for what follows
    rw [if_neg hslash]
    have hkeep : (decide (p.head? = some slash) && fl.pathname) = false := by
      rw [← Bool.not_eq_true, Bool.and_eq_true, decide_eq_true_eq]
      exact hslash
    rw [hkeep, Bool.and_false, starLoop_iff]
    refine exists_congr fun t => exists_congr fun s' => and_congr_right fun _ => ?_
    constructor
    · rintro ⟨-, ht, h⟩
      exact ⟨ht, Accepted.any_prev ((ih false none s').1 h) rfl⟩
    · rintro ⟨ht, h⟩
      refine ⟨fun hnil => ?_, ht, (ih false none s').2 (h.any_prev rfl)⟩
      subst hnil
      exact hsome _ _ h

end

theorem fnmatchLoop_iff (rule : Bool) (fuel fuel' : Nat) (pattern : List Byte) (prev : Option Byte)
    (string : List Byte) (hfuel : pattern.length < fuel) (hfuel' : pattern.length < fuel') :
    fnmatchLoop { fl with period := rule } fuel pattern prev string = true ↔
      Accepted fl rule prev (parseLoop fl negation fuel' pattern) string := by
  induction fuel generalizing rule fuel' pattern prev string with
  | zero => omega
  | succ fuel ih =>
    obtain ⟨fuel', rfl⟩ : ∃ f, fuel' = f + 1 := ⟨fuel' - 1, by omega⟩
    cases pattern with
    | nil =>
      rw [fnmatchLoop, parseLoop, accepted_nil, List.isEmpty_iff]
    | cons c pattern =>
      rw [List.length_cons] at hfuel hfuel'
      rw [fnmatchLoop.eq_def, parseLoop.eq_def]
      dsimp only
      by_cases h₁ : c = question
      · rw [if_pos h₁, if_pos h₁, accepted_any]
        cases string with
        | nil => simp
        | cons d rest =>
          dsimp only
          by_cases hfree : Free { fl with period := rule } prev d
          · rw [if_neg (Bool.not_eq_true _ ▸ free_iff.2 hfree), ih _ fuel' _ _ _ (by omega)
            (by omega)]
            constructor
            · exact fun h => ⟨d, rest, rfl, hfree, h⟩
            · rintro ⟨c, s', heq, -, h⟩
              obtain ⟨rfl, rfl⟩ := List.cons.inj heq
              exact h
          · rw [if_pos (by rw [← Bool.not_eq_false]; exact fun h => hfree (free_iff.1 h))]
            refine ⟨fun h => absurd h Bool.false_ne_true, ?_⟩
            rintro ⟨c, s', heq, h, -⟩
            obtain ⟨rfl, rfl⟩ := List.cons.inj heq
            exact absurd h hfree
      rw [if_neg h₁, if_neg h₁]
      by_cases h₂ : c = asterisk
      · rw [if_pos h₂, if_pos h₂]
        have hle := (List.dropWhile_suffix (fun x => decide (x = asterisk))
          (l := pattern)).length_le
        exact fnmatch_star (f := fun fl => fnmatchLoop fl fuel) rfl (by omega)
          fun rule prev s => ih rule fuel' _ prev s (by omega) (by omega)
      rw [if_neg h₂, if_neg h₂]
      by_cases h₃ : c = bracket
      · rw [if_pos h₃, if_pos h₃]
        cases hr : ranges fl (pattern.length + 1) (listOf negation pattern) with
        | none =>
          refine iff_of_false ?_ not_accepted_never
          cases string with
          | nil => simp
          | cons d rest =>
            have hnone : rangematch fl pattern d = none := by
              rw [Option.eq_none_iff_forall_ne_some]
              intro p hp
              obtain ⟨rs, heq, -⟩ := rangematch_eq_some.1 hp
              rw [hr] at heq
              cases heq
            simp [rangematch_period, hnone]
        | some r =>
          obtain ⟨rs, p⟩ := r
          dsimp only
          have hlen := ranges_length hr
          have hle := rangeList_eq pattern ▸ length_rangeList_le pattern
          rw [accepted_set]
          cases string with
          | nil => simp
          | cons d rest =>
            dsimp only
            rw [rangematch_period]
            by_cases hapart : fl.pathname = true ∧ d = slash
            · rw [if_pos (by simp [hapart])]
              refine ⟨fun h => absurd h Bool.false_ne_true, ?_⟩
              rintro ⟨c, s', heq, -, h, -⟩
              obtain ⟨rfl, rfl⟩ := List.cons.inj heq
              exact absurd hapart h
            rw [if_neg (by simpa [and_comm] using hapart)]
            cases hmatch : rangematch fl pattern d with
            | none =>
              refine ⟨fun h => absurd h Bool.false_ne_true, ?_⟩
              rintro ⟨c, s', heq, htakes, -⟩
              obtain ⟨rfl, rfl⟩ := List.cons.inj heq
              rw [rangematch_eq_some.2 ⟨rs, hr, htakes⟩] at hmatch
              cases hmatch
            | some p' =>
              obtain ⟨rs', heq, htakes⟩ := rangematch_eq_some.1 hmatch
              rw [hr] at heq
              obtain ⟨rfl, rfl⟩ := Prod.mk.inj (Option.some.inj heq)
              dsimp only
              rw [ih _ fuel' _ _ _ (by omega) (by omega)]
              constructor
              · exact fun h => ⟨d, rest, rfl, htakes, hapart, h⟩
              · rintro ⟨c, s', heq, -, -, h⟩
                obtain ⟨rfl, rfl⟩ := List.cons.inj heq
                exact h
      rw [if_neg h₃, if_neg h₃]
      -- a character that stands for itself
      have hone : ∀ lit : Byte × List Byte, lit.2.length ≤ pattern.length → ∀ d rest,
          (lit.1 == d && fnmatchLoop { fl with period := rule } fuel lit.2 (some d) rest) = true ↔
            lit.1 = d ∧ Accepted fl rule (some d) (parseLoop fl negation fuel' lit.2) rest := by
        intro lit hlit d rest
        rw [Bool.and_eq_true, beq_iff_eq, ih _ fuel' _ _ _ (by omega) (by omega)]
      by_cases h₄ : c = backslash ∧ fl.noescape = false
      · rw [if_pos h₄]
        cases pattern with
        | nil =>
          have hlit : literal { fl with period := rule } c [] = (backslash, []) := if_pos h₄
          have hparse : parseLoop fl negation fuel' [] = [] := by cases fuel' <;> rfl
          rw [hlit, accepted_char]
          cases string with
          | nil => simp
          | cons d rest =>
            refine (hone (backslash, []) (Nat.le_refl _) d rest).trans ?_
            rw [hparse]
            constructor
            · rintro ⟨rfl, h⟩
              exact ⟨rest, rfl, h⟩
            · rintro ⟨s', heq, h⟩
              obtain ⟨rfl, rfl⟩ := List.cons.inj heq
              exact ⟨rfl, h⟩
        | cons d p =>
          have hlit : literal { fl with period := rule } c (d :: p) = (d, p) := if_pos h₄
          rw [hlit, accepted_quoted]
          cases string with
          | nil => simp
          | cons d' rest =>
            refine (hone (d, p) (Nat.le_succ _) d' rest).trans ?_
            constructor
            · rintro ⟨rfl, h⟩
              exact ⟨rest, rfl, h⟩
            · rintro ⟨s', heq, h⟩
              obtain ⟨rfl, rfl⟩ := List.cons.inj heq
              exact ⟨rfl, h⟩
      · have hlit : literal { fl with period := rule } c pattern = (c, pattern) := if_neg h₄
        rw [if_neg h₄, hlit, accepted_char]
        cases string with
        | nil => simp
        | cons d rest =>
          refine (hone (c, pattern) (Nat.le_refl _) d rest).trans ?_
          constructor
          · rintro ⟨rfl, h⟩
            exact ⟨rest, rfl, h⟩
          · rintro ⟨s', heq, h⟩
            obtain ⟨rfl, rfl⟩ := List.cons.inj heq
            exact ⟨rfl, h⟩

theorem fnmatch_accepted (fl : Flags) (pattern string : List Byte) :
    fnmatch fl pattern string = true ↔ Accepted fl fl.period none (parse fl negation pattern) string
      :=
  fnmatchLoop_iff fl.period _ _ _ _ _ (Nat.lt_succ_self _) (Nat.lt_succ_self _)

/-! ### Without special rules -/

inductive Lang : List Elem → List Byte → Prop
  | nil : Lang [] []
  | char {c : Byte} {p : List Elem} {s : List Byte} (h : Lang p s) : Lang (.char c :: p) (c :: s)
  | quoted {c : Byte} {p : List Elem} {s : List Byte} (h : Lang p s) :
    Lang (.quoted c :: p) (c :: s)
  | one {e : Elem} {c : Byte} {p : List Elem} {s : List Byte} (takes : e.Takes c) (h : Lang p s) :
    Lang (e :: p) (c :: s)
  | star {p : List Elem} {s : List Byte} (t : List Byte) (h : Lang p s) : Lang (.star :: p) (t ++ s)

theorem accepted_iff_lang {rule : Bool} {prev : Option Byte} {p : List Elem} {s : List Byte}
    (hpath : fl.pathname = false) (hrule : rule = false) :
    Accepted fl rule prev p s ↔ Lang p s := by
  constructor
  · intro h
    induction h with
    | nil => exact .nil
    | char _ ih => exact .char (ih hrule)
    | quoted _ ih => exact .quoted (ih hrule)
    | any _ _ ih => exact .one trivial (ih hrule)
    | set takes _ _ ih => exact .one takes (ih hrule)
    | star _ _ _ ih => exact .star _ (ih (by simp [hrule]))
  · intro h
    induction h generalizing prev with
    | nil => exact .nil _ _
    | char _ ih => exact .char ih
    | quoted _ ih => exact .quoted ih
    | @one e c p s takes _ ih =>
      cases e with
      | any => exact .any ⟨fun h => by simp [hpath] at h, fun h => by simp [hrule] at h⟩ ih
      | set negate rs => exact .set takes (fun h => by simp [hpath] at h) ih
      | char | quoted | star | never => exact takes.elim
    | star t _ ih =>
      refine .star (fun _ _ h => by simp [hrule] at h) (fun h => by simp [hpath] at h) ?_
      have hnone : Accepted fl false none _ _ := hrule ▸ @ih none
      exact (by simpa [hrule] using hnone.any_prev rfl)

/-- Without special rules `fnmatch` decides the language of the pattern. -/
theorem fnmatch_language (noescape : Bool) (pattern string : List Byte) :
    fnmatch ⟨noescape, false, false⟩ pattern string = true ↔
      Lang (parse ⟨noescape, false, false⟩ negation pattern) string := by
  rw [fnmatch_accepted, accepted_iff_lang rfl rfl]

/-- `[^a]` does not match `a`, although both characters are listed. -/
theorem fnmatch_circumflex :
    ¬∀ noescape pattern string, fnmatch ⟨noescape, false, false⟩ pattern string = true ↔
      Lang (parse ⟨noescape, false, false⟩ (· = bang) pattern) string := by
  intro h
  have hparse : parse ⟨false, false, false⟩ (· = bang) [91, 94, 97, 93] =
      [.set false [(94, 94), (97, 97)]] := rfl
  have hlang : Lang [.set false [(94, 94), (97, 97)]] [97] :=
    .one (iff_of_true ⟨(97, 97), by decide, by decide, by decide⟩ rfl) .nil
  have hmatch := (h false [91, 94, 97, 93] [97]).2 (hparse ▸ hlang)
  exact absurd hmatch (by decide)

/-! ### Leading periods -/

/-- `Leads`, as a truth value. -/
def leads (fl : Flags) (prev : Option Byte) (c : Byte) : Bool :=
  c = dot && (prev = none || (fl.pathname && prev = some slash))

theorem leads_iff {prev : Option Byte} {c : Byte} : leads fl prev c = true ↔ Leads fl prev c := by
  simp [leads, Leads]

/-- The ways in which `fnmatch` matches a string: as in `Accepted`, with the answer whether a
wildcard or a bracket takes a leading period. -/
inductive Aligned (fl : Flags) : Bool → Option Byte → List Elem → List Byte → Bool → Prop
  | nil (rule : Bool) (prev : Option Byte) : Aligned fl rule prev [] [] false
  | char {rule v : Bool} {prev : Option Byte} {c : Byte} {p : List Elem} {s : List Byte}
    (h : Aligned fl rule (some c) p s v) : Aligned fl rule prev (.char c :: p) (c :: s) v
  | quoted {rule v : Bool} {prev : Option Byte} {c : Byte} {p : List Elem} {s : List Byte}
    (h : Aligned fl rule (some c) p s v) : Aligned fl rule prev (.quoted c :: p) (c :: s) v
  | any {rule v : Bool} {prev : Option Byte} {c : Byte} {p : List Elem} {s : List Byte}
    (free : Free { fl with period := rule } prev c) (h : Aligned fl rule (some c) p s v) :
    Aligned fl rule prev (.any :: p) (c :: s) (v || leads fl prev c)
  | set {rule negate v : Bool} {rs : List (Byte × Byte)} {prev : Option Byte} {c : Byte}
    {p : List Elem} {s : List Byte} (takes : (Elem.set negate rs).Takes c)
    (apart : ¬(fl.pathname = true ∧ c = slash)) (h : Aligned fl rule (some c) p s v) :
    Aligned fl rule prev (.set negate rs :: p) (c :: s) (v || leads fl prev c)
  | star {rule v : Bool} {prev : Option Byte} {p : List Elem} {s t : List Byte}
    (first : ∀ c ∈ (t ++ s).head?, ¬(rule = true ∧ Leads fl prev c))
    (apart : fl.pathname = true → slash ∉ t)
    (h : Aligned fl (rule && keeps fl p) (t.getLast?.or prev) p s v) :
    Aligned fl rule prev (.star :: p) (t ++ s) (v || t.head?.any (leads fl prev))

section

variable {rule v : Bool} {prev : Option Byte} {p : List Elem} {s t : List Byte}

theorem accepted_iff_aligned : Accepted fl rule prev p s ↔ ∃ v, Aligned fl rule prev p s v := by
  constructor
  · intro h
    induction h with
    | nil rule prev => exact ⟨_, .nil rule prev⟩
    | char _ ih => exact ih.imp fun _ => .char
    | quoted _ ih => exact ih.imp fun _ => .quoted
    | any free _ ih =>
      obtain ⟨v, h⟩ := ih
      exact ⟨_, .any free h⟩
    | set takes apart _ ih =>
      obtain ⟨v, h⟩ := ih
      exact ⟨_, .set takes apart h⟩
    | star first apart _ ih =>
      obtain ⟨v, h⟩ := ih
      exact ⟨_, .star first apart h⟩
  · rintro ⟨v, h⟩
    induction h with
    | nil rule prev => exact .nil rule prev
    | char _ ih => exact .char ih
    | quoted _ ih => exact .quoted ih
    | any free _ ih => exact .any free ih
    | set takes apart _ ih => exact .set takes apart ih
    | star first apart _ ih => exact .star first apart ih

theorem Obeys.star (h : Obeys fl (t.getLast?.or prev) p s)
    (apart : fl.pathname = true → slash ∉ t) (first : ∀ c ∈ t.head?, ¬Leads fl prev c) :
    Obeys fl prev (.star :: p) (t ++ s) := by
  induction t generalizing prev with
  | nil => exact .stop h
  | cons c t ih =>
    have hc : fl.pathname = true → slash ≠ c ∧ slash ∉ t := fun hpath => by
      simpa [not_or] using apart hpath
    refine .more ⟨fun h => (hc h.1).1 h.2.symm, fun h => first c rfl h.2⟩ (ih ?_ ?_ ?_)
    · cases t with
      | nil => exact h
      | cons d t =>
        rw [List.getLast?_cons_cons] at h
        obtain ⟨x, hx⟩ := Option.ne_none_iff_exists'.1
          (List.getLast?_eq_none_iff.not.2 (List.cons_ne_nil d t))
        rw [hx] at h ⊢
        exact h
    · exact fun hpath => (hc hpath).2
    · -- behind a character that is no slash nothing leads
      rintro d - ⟨-, h | ⟨hpath, h⟩⟩
      · cases h
      · exact (hc hpath).1 (Option.some.inj h).symm

theorem Aligned.obeys (h : Aligned fl rule prev p s v) (hv : v = false) : Obeys fl prev p s := by
  induction h with
  | nil => exact .nil _
  | char _ ih => exact .char (ih hv)
  | quoted _ ih => exact .quoted (ih hv)
  | any free _ ih =>
    obtain ⟨hv, hleads⟩ := Bool.or_eq_false_iff.1 hv
    exact .one trivial ⟨free.1, fun h => by simp [leads_iff.2 h.2] at hleads⟩ (ih hv)
  | set takes apart _ ih =>
    obtain ⟨hv, hleads⟩ := Bool.or_eq_false_iff.1 hv
    exact .one takes ⟨apart, fun h => by simp [leads_iff.2 h.2] at hleads⟩ (ih hv)
  | star _ apart _ ih =>
    obtain ⟨hv, hleads⟩ := Bool.or_eq_false_iff.1 hv
    refine (ih hv).star apart fun c hc h => ?_
    simp [Option.mem_def.1 hc, leads_iff.2 h] at hleads

end

end Bsdi.Gen
