import Bsdi.Sh.Quoting
import Mathlib.Data.List.Infix
import Mathlib.Data.List.TakeWhile

/-!
# Patterns with quoted parts

The language of a pattern, whose characters are quoted or not, and what `pmatch` makes of the text
the tokenizer leaves of it.
-/

namespace Bsdi.Sh

structure Letter where
  byte : Byte
  quoted : Bool
  deriving DecidableEq, Repr

namespace Letter

/-- The letter stands for more than its character: it is not quoted, and is `c`. -/
def Is (l : Letter) (c : Byte) : Prop := l.quoted = false ∧ l.byte = c

instance (l : Letter) (c : Byte) : Decidable (l.Is c) := instDecidableAnd

/-- The text of a letter where `CTLESC` stands before a quoted one. -/
def code (l : Letter) : List Byte := if l.quoted then [ctlesc, l.byte] else [l.byte]

end Letter

def codes (ls : List Letter) : List Byte := ls.flatMap Letter.code

abbrev question : Byte := 63

abbrev asterisk : Byte := 42

abbrev bracket : Byte := 91

abbrev closing : Byte := 93

abbrev bang : Byte := 33

abbrev dash : Byte := 45

/-- `c` is between the ends of a range, as signed characters. -/
def Between (range : Byte × Byte) (c : Byte) : Prop :=
  range.1.toInt8 ≤ c.toInt8 ∧ c.toInt8 ≤ range.2.toInt8

instance (range : Byte × Byte) (c : Byte) : Decidable (Between range c) := instDecidableAnd

/-- The members of a bracket expression and the letters behind it, where `first` tells that no
member has been read: a bracket there does not close it. -/
def listed : (first : Bool) → List Letter → Option (List (Byte × Byte) × List Letter)
  | _, [] => none
  | first, l :: ls =>
    if first = false ∧ l.Is closing then some ([], ls)
    else match ls with
      | [] => none
      | [d] => (listed false [d]).map fun (rs, rest) => ((l.byte, l.byte) :: rs, rest)
      | d :: e :: ls =>
        if d.Is dash ∧ ¬ e.Is closing then
          (listed false ls).map fun (rs, rest) => ((l.byte, e.byte) :: rs, rest)
        else (listed false (d :: e :: ls)).map fun (rs, rest) => ((l.byte, l.byte) :: rs, rest)

def bracketed (ls : List Letter) : Option (Bool × List (Byte × Byte) × List Letter) :=
  match ls with
  | [] => none
  | l :: ls =>
    if l.Is bang then (listed true ls).map fun x => (true, x)
    else (listed true (l :: ls)).map fun x => (false, x)

/-- A bracket expression takes `c`. -/
def Takes (negate : Bool) (ranges : List (Byte × Byte)) (c : Byte) : Prop :=
  (∃ r ∈ ranges, Between r c) ↔ negate = false

/-- A letter that stands for its character alone, where `ls` are the letters behind it. -/
def Literal (l : Letter) (ls : List Letter) : Prop :=
  ¬ l.Is question ∧ ¬ l.Is asterisk ∧ (l.Is bracket → bracketed ls = none)

inductive Matches : List Letter → List Byte → Prop
  | nil : Matches [] []
  | char {l : Letter} {ls : List Letter} {s : List Byte} (literal : Literal l ls)
    (h : Matches ls s) : Matches (l :: ls) (l.byte :: s)
  | any {l : Letter} {ls : List Letter} {s : List Byte} (c : Byte) (is : l.Is question)
    (h : Matches ls s) : Matches (l :: ls) (c :: s)
  | star {l : Letter} {ls : List Letter} {s : List Byte} (t : List Byte) (is : l.Is asterisk)
    (h : Matches ls s) : Matches (l :: ls) (t ++ s)
  | set {l : Letter} {ls rest : List Letter} {s : List Byte} {negate : Bool}
    {ranges : List (Byte × Byte)} {c : Byte} (is : l.Is bracket)
    (found : bracketed ls = some (negate, ranges, rest)) (takes : Takes negate ranges c)
    (h : Matches rest s) : Matches (l :: ls) (c :: s)

variable {l : Letter} {ls : List Letter} {s : List Byte} {c : Byte}

def Coded (ls : List Letter) : Prop :=
  ∀ l ∈ ls, l.byte ≠ 0 ∧ (l.quoted = false → l.byte ≠ ctlesc)

theorem coded_cons : Coded (l :: ls) ↔
    (l.byte ≠ 0 ∧ (l.quoted = false → l.byte ≠ ctlesc)) ∧ Coded ls :=
  List.forall_mem_cons

theorem codes_cons : codes (l :: ls) = l.code ++ codes ls := List.flatMap_cons

theorem listed_closing (h : l.Is closing) : listed false (l :: ls) = some ([], ls) := by
  rw [listed.eq_def]
  dsimp only
  rw [if_pos ⟨rfl, h⟩]

theorem listed_true (h : ¬ l.Is closing) : listed false (l :: ls) = listed true (l :: ls) := by
  rw [listed.eq_def, listed.eq_def true]
  dsimp only
  rw [if_neg fun h' => h h'.2, if_neg fun h' => Bool.false_ne_true h'.1.symm]

theorem listed_range {d e : Letter} (hd : d.Is dash) (he : ¬ e.Is closing) :
    listed true (l :: d :: e :: ls) =
      (listed false ls).map fun x => ((l.byte, e.byte) :: x.1, x.2) := by
  rw [listed.eq_def]
  dsimp only
  rw [if_neg fun h => Bool.false_ne_true h.1.symm, if_pos ⟨hd, he⟩]

theorem listed_member (h : ∀ d e ls', ls = d :: e :: ls' → d.Is dash → e.Is closing) :
    listed true (l :: ls) = (listed false ls).map fun x => ((l.byte, l.byte) :: x.1, x.2) := by
  rw [listed.eq_def]
  dsimp only
  rw [if_neg fun h => Bool.false_ne_true h.1.symm]
  match ls with
  | [] => rfl
  | [d] => rfl
  | d :: e :: ls' =>
    dsimp only
    rw [if_neg fun hr => hr.2 (h d e ls' rfl hr.1)]

theorem Letter.code_head (h : l.quoted = false → l.byte ≠ ctlesc) {q : List Byte} :
    (if (l.code ++ q).headD 0 = ctlesc then ((l.code ++ q).tail.headD 0, (l.code ++ q).tail.tail)
      else ((l.code ++ q).headD 0, (l.code ++ q).tail)) = (l.byte, q) := by
  cases hq : l.quoted with
  | true => simp [code, hq]
  | false => simp [code, hq, h hq]

theorem Letter.code_skip (h : l.quoted = false → l.byte ≠ ctlesc) {q : List Byte} :
    (if (l.code ++ q).headD 0 = ctlesc then (l.code ++ q).tail else l.code ++ q) = l.byte :: q := by
  cases hq : l.quoted with
  | true => simp [code, hq]
  | false => simp [code, hq, h hq]

theorem Letter.Is.code (h : l.Is c) : l.code = [c] := by
  rw [Letter.code, h.1, if_neg Bool.false_ne_true, h.2]

theorem headD_codes (hc : c ≠ 0 ∧ c ≠ ctlesc) :
    (codes ls).headD 0 = c ↔ ∃ l ls', ls = l :: ls' ∧ l.Is c := by
  cases ls with
  | nil => simp [codes, Ne.symm hc.1]
  | cons l ls =>
    rw [codes_cons, Letter.code]
    cases hq : l.quoted with
    | true => simp [Letter.Is, hq, Ne.symm hc.2]
    | false => simp [Letter.Is, hq]

theorem closed_code (h : l.quoted = false → l.byte ≠ ctlesc) {q : List Byte} :
    closed (l.code ++ q) = (q.headD 0 = closing || closed q) := by
  cases hq : l.quoted with
  | true => cases q <;> simp [Letter.code, hq, closed, closing]
  | false => cases q <;> simp [Letter.code, hq, closed, closing, h hq]

theorem closed_codes (h : Coded (l :: ls)) :
    closed (codes (l :: ls)) = ls.any fun l => l.Is closing := by
  induction ls generalizing l with
  | nil =>
    rw [codes_cons, closed_code (coded_cons.mp h).1.2]
    rfl
  | cons d ls ih =>
    obtain ⟨hl, h⟩ := coded_cons.mp h
    rw [codes_cons, closed_code hl.2, ih h, List.any_cons]
    congr 1
    rw [decide_eq_decide, headD_codes (by decide)]
    simp

theorem between_self {d : Byte} : Between (d, d) c ↔ c = d := by
  rw [Between]
  constructor
  · rintro ⟨h1, h2⟩
    rw [← UInt8.toUInt8_toInt8 c, ← UInt8.toUInt8_toInt8 d, Int8.le_antisymm h2 h1]
  · rintro rfl
    exact ⟨Int8.le_refl _, Int8.le_refl _⟩

theorem members_spec {chr : Byte} (n : Nat) {found : Bool} {ranges : List (Byte × Byte)}
    {rest : List Letter} (h : Coded (l :: ls)) (hn : ls.length < n)
    (hlisted : listed true (l :: ls) = some (ranges, rest)) :
    members chr n ((codes (l :: ls)).headD 0) (codes (l :: ls)).tail found =
      (found || decide (∃ r ∈ ranges, Between r chr), codes rest) := by
  induction n generalizing l ls found ranges with
  | zero => omega
  | succ n ih =>
    obtain ⟨hl, h⟩ := coded_cons.mp h
    -- what follows a member
    have hafter : ∀ (found : Bool) {ls' : List Letter} {ranges : List (Byte × Byte)},
        Coded ls' → ls'.length ≤ n → listed false ls' = some (ranges, rest) →
          (if (codes ls').headD 0 = closing then (found, (codes ls').tail)
            else members chr n ((codes ls').headD 0) (codes ls').tail found) =
              (found || decide (∃ r ∈ ranges, Between r chr), codes rest) := by
      intro found ls' ranges h hn hlisted
      match ls' with
      | [] => exact absurd hlisted (by simp [listed])
      | l' :: ls' =>
        by_cases hclosing : l'.Is closing
        · rw [if_pos ((headD_codes (by decide)).mpr ⟨l', ls', rfl, hclosing⟩)]
          rw [listed_closing hclosing, Option.some.injEq, Prod.mk.injEq] at hlisted
          obtain ⟨rfl, rfl⟩ := hlisted
          rw [codes_cons, hclosing.code]
          simp
        · rw [if_neg fun hhead => ?_]
          · rw [listed_true hclosing] at hlisted
            exact ih h hn hlisted
          · obtain ⟨_, _, heq, his⟩ := (headD_codes (by decide)).mp hhead
            obtain ⟨rfl, -⟩ := List.cons.inj heq
            exact hclosing his
    rw [members, codes_cons, Letter.code_head hl.2]
    dsimp only
    by_cases hrange : ∃ d e ls', ls = d :: e :: ls' ∧ d.Is dash ∧ ¬ e.Is closing
    · obtain ⟨d, e, ls', rfl, hd, he⟩ := hrange
      obtain ⟨-, h⟩ := coded_cons.mp h
      obtain ⟨hecode, h⟩ := coded_cons.mp h
      rw [listed_range hd he, Option.map_eq_some_iff] at hlisted
      obtain ⟨⟨ranges', rest'⟩, hlisted, heq⟩ := hlisted
      obtain ⟨rfl, rfl⟩ := Prod.mk.inj heq
      have htail : (codes (d :: e :: ls')).tail = codes (e :: ls') := by
        rw [codes_cons, hd.code]
        rfl
      have hnot : (codes (e :: ls')).headD 0 ≠ 93 := fun hhead => by
        obtain ⟨_, _, heq, his⟩ := (headD_codes (c := 93) (by decide)).mp hhead
        obtain ⟨rfl, -⟩ := List.cons.inj heq
        exact he his
      have hhead : (codes (d :: e :: ls')).headD 0 = 45 :=
        (headD_codes (by decide)).mpr ⟨d, e :: ls', rfl, hd⟩
      have hcond : ((codes (d :: e :: ls')).headD 0 = 45 ∧ (codes (e :: ls')).headD 0 ≠ 93) =
          True := eq_true ⟨hhead, hnot⟩
      simp only [htail, hcond, if_true]
      rw [codes_cons (l := e), Letter.code_skip hecode.2]
      dsimp only [List.headD_cons, List.tail_cons]
      have hlen : ls'.length ≤ n := by
        simp only [List.length_cons] at hn
        omega
      have hrest := hafter (found || (l.byte.toInt8 ≤ chr.toInt8 && chr.toInt8 ≤
        e.byte.toInt8)) h hlen hlisted
      have hbetween : (decide (l.byte.toInt8 ≤ chr.toInt8) && decide (chr.toInt8 ≤ e.byte.toInt8)) =
          decide (Between (l.byte, e.byte) chr) := (Bool.decide_and _ _).symm
      refine hrest.trans ?_
      simp only [hbetween, List.exists_mem_cons_iff, Bool.decide_or, Bool.or_assoc]
    · rw [listed_member, Option.map_eq_some_iff] at hlisted
      · obtain ⟨⟨ranges', rest'⟩, hlisted, heq⟩ := hlisted
        obtain ⟨rfl, rfl⟩ := Prod.mk.inj heq
        have hcond : ((codes ls).headD 0 = 45 ∧ (codes ls).tail.headD 0 ≠ 93) = False := by
          refine eq_false ?_
          rintro ⟨hhead, hnot⟩
          obtain ⟨d, ls', rfl, hd⟩ := (headD_codes (c := 45) (by decide)).mp hhead
          have hopen : ¬ d.Is closing := fun h => absurd (h.2.symm.trans hd.2) (by decide)
          rw [codes_cons, hd.code] at hnot
          match ls' with
          | [] =>
            rw [listed_true hopen, listed_member (fun _ _ _ h => by simp at h)] at hlisted
            simp [listed] at hlisted
          | e :: ls' =>
            refine hnot ((headD_codes (c := 93) (by decide)).mpr ⟨e, ls', rfl, ?_⟩)
            by_contra he
            exact hrange ⟨d, e, ls', rfl, hd, he⟩
        simp only [hcond, if_false]
        have hrest := hafter (found || decide (chr = l.byte)) h (by omega) hlisted
        refine hrest.trans ?_
        simp only [List.exists_mem_cons_iff, Bool.decide_or, between_self, Bool.or_assoc]
      · intro d e ls' heq hd
        by_contra he
        exact hrange ⟨d, e, ls', heq, hd, he⟩

theorem listed_first {ls : List Letter}
    (h : ∀ ls' : List Letter, ls'.length ≤ ls.length →
      (listed false ls').isSome = ls'.any fun l => l.Is closing) :
    (listed true (l :: ls)).isSome = ls.any fun l => l.Is closing := by
  by_cases hrange : ∃ d e ls', ls = d :: e :: ls' ∧ d.Is dash ∧ ¬ e.Is closing
  · obtain ⟨d, e, ls', rfl, hd, he⟩ := hrange
    have hopen : ¬ d.Is closing := fun h => absurd (h.2.symm.trans hd.2) (by decide)
    rw [listed_range hd he, Option.isSome_map, h _ (by simp only [List.length_cons]; omega)]
    simp [hopen, he]
  · rw [listed_member, Option.isSome_map, h _ (Nat.le_refl _)]
    intro d e ls' heq hd
    by_contra he
    exact hrange ⟨d, e, ls', heq, hd, he⟩

theorem listed_isSome (ls : List Letter) :
    (listed false ls).isSome = ls.any fun l => l.Is closing := by
  induction hn : ls.length using Nat.strongRecOn generalizing ls with
  | _ n ih =>
    subst hn
    match ls with
    | [] => rfl
    | l :: ls =>
      by_cases hclosing : l.Is closing
      · simp [listed_closing hclosing, hclosing]
      · rw [listed_true hclosing, listed_first fun ls' hle => ih _ (Nat.lt_succ_of_le hle) ls' rfl]
        simp [hclosing]

theorem closed_bracketed (h : Coded ls) :
    closed (if (codes ls).headD 0 = bang then (codes ls).tail else codes ls) =
      (bracketed ls).isSome := by
  have hfirst : ∀ {l : Letter} {ls : List Letter}, Coded (l :: ls) →
      closed (codes (l :: ls)) = (listed true (l :: ls)).isSome := fun h => by
    rw [closed_codes h, listed_first fun ls' _ => listed_isSome ls']
  match ls with
  | [] => rfl
  | l :: ls =>
    have hhead : (codes (l :: ls)).headD 0 = bang ↔
        ∃ l' ls', l :: ls = l' :: ls' ∧ l'.Is bang := headD_codes (by decide)
    rw [bracketed]
    by_cases hbang : l.Is bang
    · rw [if_pos (hhead.mpr ⟨l, ls, rfl, hbang⟩), codes_cons, hbang.code, if_pos hbang,
        Option.isSome_map]
      match ls with
      | [] => rfl
      | l' :: ls => exact hfirst (coded_cons.mp h).2
    · rw [if_neg, if_neg hbang, Option.isSome_map, hfirst h]
      rintro hb
      obtain ⟨_, _, heq, his⟩ := hhead.mp hb
      obtain ⟨rfl, -⟩ := List.cons.inj heq
      exact hbang his

theorem length_le_codes (ls : List Letter) : ls.length ≤ (codes ls).length := by
  induction ls with
  | nil => exact Nat.le_refl _
  | cons l ls ih =>
    have hpos : 0 < l.code.length := by
      rw [Letter.code]
      split_ifs <;> exact Nat.succ_pos _
    rw [codes_cons, List.length_append, List.length_cons]
    omega

theorem listed_rest {first : Bool} {ranges : List (Byte × Byte)} {rest : List Letter}
    (h : listed first ls = some (ranges, rest)) : rest <:+ ls := by
  induction first, ls using listed.induct generalizing ranges with
  | case1 => exact absurd h (by simp [listed])
  | case2 first l ls hclosing =>
    rw [listed.eq_def] at h
    dsimp only at h
    rw [if_pos hclosing] at h
    obtain ⟨-, rfl⟩ := Prod.mk.inj (Option.some.inj h)
    exact List.suffix_cons _ _
  | case3 first l hopen =>
    rw [listed.eq_def] at h
    dsimp only at h
    rw [if_neg hopen] at h
    cases h
  | case4 first l hopen d ih =>
    rw [listed.eq_def] at h
    dsimp only at h
    rw [if_neg hopen, Option.map_eq_some_iff] at h
    obtain ⟨x, hx, heq⟩ := h
    obtain ⟨-, rfl⟩ := Prod.mk.inj heq
    exact (ih hx).trans (List.suffix_cons _ _)
  | case5 first l hopen d e ls hrange ih =>
    rw [listed.eq_def] at h
    dsimp only at h
    rw [if_neg hopen, if_pos hrange, Option.map_eq_some_iff] at h
    obtain ⟨x, hx, heq⟩ := h
    obtain ⟨-, rfl⟩ := Prod.mk.inj heq
    exact (ih hx).trans (List.suffix_append [l, d, e] ls)
  | case6 first l hopen d e ls hrange ih =>
    rw [listed.eq_def] at h
    dsimp only at h
    rw [if_neg hopen, if_neg hrange, Option.map_eq_some_iff] at h
    obtain ⟨x, hx, heq⟩ := h
    obtain ⟨-, rfl⟩ := Prod.mk.inj heq
    exact (ih hx).trans (List.suffix_cons _ _)

theorem bracketed_suffix {negate : Bool} {ranges : List (Byte × Byte)} {rest : List Letter}
    (hfound : bracketed ls = some (negate, ranges, rest)) : rest <:+ ls := by
  match ls with
  | [] => exact absurd hfound (by simp [bracketed])
  | l :: ls =>
    rw [bracketed] at hfound
    split_ifs at hfound with hbang
    · obtain ⟨x, hlisted, heq⟩ := Option.map_eq_some_iff.mp hfound
      obtain ⟨-, rfl⟩ := Prod.mk.inj heq
      exact (listed_rest hlisted).trans (List.suffix_cons _ _)
    · obtain ⟨x, hlisted, heq⟩ := Option.map_eq_some_iff.mp hfound
      obtain ⟨-, rfl⟩ := Prod.mk.inj heq
      exact listed_rest hlisted

theorem bracketed_rest {negate : Bool} {ranges : List (Byte × Byte)} {rest : List Letter}
    (h : Coded ls) (hfound : bracketed ls = some (negate, ranges, rest)) :
    Coded rest ∧ (codes rest).length ≤ (codes ls).length := by
  obtain ⟨pre, rfl⟩ := bracketed_suffix hfound
  refine ⟨fun l hl => h l (List.mem_append_right _ hl), ?_⟩
  rw [codes, codes, List.flatMap_append, List.length_append]
  exact Nat.le_add_left _ _

theorem members_bracketed (chr : Byte) {negate : Bool} {ranges : List (Byte × Byte)}
    {rest : List Letter} (h : Coded ls) (hbracketed : bracketed ls = some (negate, ranges, rest)) :
    decide ((codes ls).headD 0 = bang) = negate ∧
      ∀ p, (if (codes ls).headD 0 = bang then (codes ls).tail else codes ls) = p →
        members chr (p.length + 1) (p.headD 0) p.tail false =
          (decide (∃ r ∈ ranges, Between r chr), codes rest) := by
  have hfirst : ∀ {ls : List Letter}, Coded ls → listed true ls = some (ranges, rest) →
      members chr ((codes ls).length + 1) ((codes ls).headD 0) (codes ls).tail false =
        (decide (∃ r ∈ ranges, Between r chr), codes rest) := by
    intro ls h hlisted
    match ls with
    | [] => exact absurd hlisted (by simp [listed])
    | l :: ls =>
      have hle := length_le_codes (l :: ls)
      rw [List.length_cons] at hle
      rw [members_spec _ h (by omega) hlisted, Bool.false_or]
  match ls with
  | [] => exact absurd hbracketed (by simp [bracketed])
  | l :: ls =>
    have hhead : (codes (l :: ls)).headD 0 = bang ↔
        ∃ l' ls', l :: ls = l' :: ls' ∧ l'.Is bang := headD_codes (by decide)
    rw [bracketed] at hbracketed
    by_cases hbang : l.Is bang
    · rw [if_pos hbang, Option.map_eq_some_iff] at hbracketed
      obtain ⟨x, hlisted, heq⟩ := hbracketed
      obtain ⟨rfl, rfl⟩ := Prod.mk.inj heq
      have hb := hhead.mpr ⟨l, ls, rfl, hbang⟩
      refine ⟨decide_eq_true hb, fun p hp => ?_⟩
      rw [if_pos hb, codes_cons, hbang.code] at hp
      subst hp
      exact hfirst (coded_cons.mp h).2 hlisted
    · rw [if_neg hbang, Option.map_eq_some_iff] at hbracketed
      obtain ⟨x, hlisted, heq⟩ := hbracketed
      obtain ⟨rfl, rfl⟩ := Prod.mk.inj heq
      have hb : ¬ (codes (l :: ls)).headD 0 = bang := fun hb => by
        obtain ⟨_, _, heq, his⟩ := hhead.mp hb
        obtain ⟨rfl, -⟩ := List.cons.inj heq
        exact hbang his
      refine ⟨decide_eq_false hb, fun p hp => ?_⟩
      rw [if_neg hb] at hp
      subst hp
      exact hfirst h hlisted

theorem matches_nil : Matches [] s ↔ s = [] := by
  constructor
  · intro h
    cases h
    rfl
  · rintro rfl
    exact .nil

theorem matches_literal (hl : Literal l ls) :
    Matches (l :: ls) s ↔ ∃ s', s = l.byte :: s' ∧ Matches ls s' := by
  constructor
  · intro h
    cases h with
    | char _ h => exact ⟨_, rfl, h⟩
    | any _ is _ => exact absurd is hl.1
    | star _ is _ => exact absurd is hl.2.1
    | set is found _ _ => exact absurd (found.symm.trans (hl.2.2 is)) (by simp)
  · rintro ⟨s', rfl, h⟩
    exact .char hl h

theorem matches_any (hl : l.Is question) :
    Matches (l :: ls) s ↔ ∃ c s', s = c :: s' ∧ Matches ls s' := by
  constructor
  · intro h
    cases h with
    | char literal _ => exact absurd hl literal.1
    | any c _ h => exact ⟨c, _, rfl, h⟩
    | star _ is _ => exact absurd (hl.2.symm.trans is.2) (by decide)
    | set is _ _ _ => exact absurd (hl.2.symm.trans is.2) (by decide)
  · rintro ⟨c, s', rfl, h⟩
    exact .any c hl h

theorem matches_star (hl : l.Is asterisk) :
    Matches (l :: ls) s ↔ ∃ t s', s = t ++ s' ∧ Matches ls s' := by
  constructor
  · intro h
    cases h with
    | char literal _ => exact absurd hl literal.2.1
    | any _ is _ => exact absurd (hl.2.symm.trans is.2) (by decide)
    | star t _ h => exact ⟨t, _, rfl, h⟩
    | set is _ _ _ => exact absurd (hl.2.symm.trans is.2) (by decide)
  · rintro ⟨t, s', rfl, h⟩
    exact .star t hl h

theorem matches_set {negate : Bool} {ranges : List (Byte × Byte)} {rest : List Letter}
    (hl : l.Is bracket) (hfound : bracketed ls = some (negate, ranges, rest)) :
    Matches (l :: ls) s ↔ ∃ c s', s = c :: s' ∧ Takes negate ranges c ∧ Matches rest s' := by
  constructor
  · intro h
    cases h with
    | char literal _ => exact absurd (hfound.symm.trans (literal.2.2 hl)) (by simp)
    | any _ is _ => exact absurd (hl.2.symm.trans is.2) (by decide)
    | star _ is _ => exact absurd (hl.2.symm.trans is.2) (by decide)
    | set _ found takes h =>
      obtain ⟨rfl, rfl, rfl⟩ : _ ∧ _ ∧ _ := by simpa using hfound.symm.trans found
      exact ⟨_, _, rfl, takes, h⟩
  · rintro ⟨c, s', rfl, htakes, h⟩
    exact .set hl hfound htakes h

theorem pmatch_literal (n : Nat) (h : Coded (l :: ls)) (hl : Literal l ls) :
    pmatch (n + 1) (codes (l :: ls)) s =
      (decide (s.headD 0 = l.byte) && pmatch n (codes ls) s.tail) := by
  obtain ⟨⟨-, hctl⟩, h⟩ := coded_cons.mp h
  rw [codes_cons, Letter.code]
  cases hq : l.quoted with
  | true => simp [pmatch]
  | false =>
    have h1 : l.byte ≠ 63 := fun h => hl.1 ⟨hq, h⟩
    have h2 : l.byte ≠ 42 := fun h => hl.2.1 ⟨hq, h⟩
    have h3 : ¬ (l.byte = 91 ∧
        closed (if (codes ls).headD 0 = 33 then (codes ls).tail else codes ls) = true) := by
      rintro ⟨hb, hclosed⟩
      have hnone := hl.2.2 ⟨hq, hb⟩
      have hspec := closed_bracketed h
      rw [hnone] at hspec
      exact absurd (hclosed.symm.trans hspec) (by simp)
    simp only [Bool.false_eq_true, if_false, List.singleton_append]
    rw [pmatch, if_neg (hctl hq), if_neg h1, if_neg h2, if_neg h3]

theorem pmatch_any (n : Nat) (hl : l.Is question) :
    pmatch (n + 1) (codes (l :: ls)) s = (!s.isEmpty && pmatch n (codes ls) s.tail) := by
  rw [codes_cons, hl.code]
  rfl

theorem suffix_dropWhile {d : Byte} {t s' : List Byte} (h : s'.head? = some d) :
    s' <:+ (t ++ s').dropWhile (· ≠ d) := by
  induction t with
  | nil =>
    match s' with
    | [] => cases h
    | c :: s' =>
      obtain rfl := Option.some.inj h
      simp
  | cons c t ih =>
    rw [List.cons_append]
    by_cases hc : c = d
    · rw [hc, List.dropWhile_cons_of_neg (by simp)]
      exact List.suffix_append (d :: t) s'
    · rw [List.dropWhile_cons_of_pos (by simpa using hc)]
      exact ih

theorem any_tails {f : List Byte → Bool} {q : List Byte} :
    q.tails.any f = true ↔ ∃ s', s' <:+ q ∧ f s' = true := by
  simp only [List.any_eq_true, List.mem_tails]

theorem pmatch_star (n : Nat) (hs : (0 : Byte) ∉ s) (h : Coded ls) (hl : l.Is asterisk)
    (ih : ∀ s', s' <:+ s → (pmatch n (codes ls) s' = true ↔ Matches ls s')) :
    pmatch (n + 1) (codes (l :: ls)) s = true ↔ ∃ t s', s = t ++ s' ∧ Matches ls s' := by
  have hsuffix : (∃ t s', s = t ++ s' ∧ Matches ls s') ↔
      ∃ s', s' <:+ s ∧ pmatch n (codes ls) s' = true := by
    constructor
    · rintro ⟨t, s', rfl, hm⟩
      exact ⟨s', List.suffix_append t s', (ih s' (List.suffix_append t s')).mpr hm⟩
    · rintro ⟨s', hsuf, hm⟩
      obtain ⟨t, rfl⟩ := id hsuf
      exact ⟨t, s', rfl, (ih s' hsuf).mp hm⟩
  rw [codes_cons, hl.code, List.singleton_append, pmatch, if_neg (by decide), if_neg (by decide),
    if_pos (by decide), hsuffix]
  dsimp only
  obtain ⟨d, hd⟩ : ∃ d, d = (codes ls).headD 0 := ⟨_, rfl⟩
  rw [← hd]
  by_cases hspecial : d ∈ ([ctlesc, 63, 42, 91] : List Byte)
  · rw [if_pos hspecial, if_neg fun h => h.1 hspecial, any_tails]
  rw [if_neg hspecial]
  match ls with
  | [] =>
    have hzero : d = 0 := hd
    have hrest : s.dropWhile (· ≠ d) = [] := by
      rw [List.dropWhile_eq_nil_iff]
      intro c hc
      rw [hzero]
      exact decide_eq_true fun h => hs (h ▸ hc)
    rw [hrest, if_neg fun h => h.2.1 hzero, any_tails]
    refine iff_of_true ⟨[], List.suffix_rfl, ?_⟩ ⟨[], List.nil_suffix, ?_⟩
    · exact (ih [] List.nil_suffix).mpr .nil
    · exact (ih [] List.nil_suffix).mpr .nil
  | l' :: ls =>
    obtain ⟨⟨hne, hctl⟩, h⟩ := coded_cons.mp h
    -- the next letter stands for `d`
    have hplain : l'.quoted = false ∧ l'.byte = d := by
      rw [codes_cons, Letter.code] at hd
      cases hq : l'.quoted with
      | true => exact absurd (by simp [hd, hq]) hspecial
      | false => exact ⟨rfl, by simp [hd, hq]⟩
    have hliteral : Literal l' ls := by
      refine ⟨fun h => hspecial ?_, fun h => hspecial ?_, fun h => absurd ?_ hspecial⟩
      · rw [← hplain.2, h.2]
        decide
      · rw [← hplain.2, h.2]
        decide
      · rw [← hplain.2, h.2]
        decide
    have hhead : ∀ s', s' <:+ s → pmatch n (codes (l' :: ls)) s' = true → s'.head? = some d := by
      intro s' hsuf hm
      obtain ⟨_, rfl, -⟩ := (matches_literal hliteral).mp ((ih s' hsuf).mp hm)
      rw [List.head?_cons, hplain.2]
    have hfound : (∃ s', s' <:+ s ∧ pmatch n (codes (l' :: ls)) s' = true) ↔
        ∃ s', s' <:+ s.dropWhile (· ≠ d) ∧ pmatch n (codes (l' :: ls)) s' = true := by
      constructor
      · rintro ⟨s', hsuf, hm⟩
        obtain ⟨t, rfl⟩ := id hsuf
        exact ⟨s', suffix_dropWhile (hhead s' hsuf hm), hm⟩
      · rintro ⟨s', hsuf, hm⟩
        exact ⟨s', hsuf.trans (List.dropWhile_suffix _), hm⟩
    rw [hfound]
    split_ifs with hnone
    · refine iff_of_false id ?_
      rintro ⟨s', hsuf, hm⟩
      have hnil : s' = [] := by
        rw [hnone.2.2] at hsuf
        exact List.suffix_nil.mp hsuf
      have hsome := hhead s' (hsuf.trans (List.dropWhile_suffix _)) hm
      rw [hnil] at hsome
      cases hsome
    · exact any_tails

theorem pmatch_set (n : Nat) {negate : Bool} {ranges : List (Byte × Byte)} {rest : List Letter}
    (h : Coded ls) (hl : l.Is bracket) (hfound : bracketed ls = some (negate, ranges, rest)) :
    pmatch (n + 1) (codes (l :: ls)) s = true ↔
      ∃ c s', s = c :: s' ∧ Takes negate ranges c ∧ pmatch n (codes rest) s' = true := by
  have hclosed := closed_bracketed h
  rw [hfound, Option.isSome_some] at hclosed
  rw [codes_cons, hl.code, List.singleton_append, pmatch, if_neg (by decide), if_neg (by decide),
    if_neg (by decide), if_pos ⟨rfl, hclosed⟩]
  match s with
  | [] => exact iff_of_false Bool.false_ne_true (by simp)
  | c :: s' =>
    obtain ⟨hnegate, hmembers⟩ := members_bracketed c h hfound
    dsimp only
    have hm := hmembers _ rfl
    rw [hm, Bool.and_eq_true, decide_eq_true_iff, decide_eq_true_iff]
    have htakes : ((∃ r ∈ ranges, Between r c) ≠ ((codes ls).headD 0 = bang)) ↔
        Takes negate ranges c := by
      rw [Takes, ← hnegate, decide_eq_false_iff_not, ne_eq, eq_iff_iff]
      exact not_iff.trans (not_iff_comm.trans Iff.comm)
    rw [htakes]
    simp

theorem pmatch_iff (n : Nat) (hn : (codes ls).length < n) (hs : (0 : Byte) ∉ s) (h : Coded ls) :
    pmatch n (codes ls) s = true ↔ Matches ls s := by
  induction n generalizing ls s with
  | zero => omega
  | succ n ih =>
    match ls with
    | [] =>
      rw [matches_nil]
      exact List.isEmpty_iff
    | l :: ls =>
      have htail := (coded_cons.mp h).2
      have hlen : (codes ls).length < n := by
        have hpos : 0 < l.code.length := by
          rw [Letter.code]
          split_ifs <;> exact Nat.succ_pos _
        rw [codes_cons, List.length_append] at hn
        omega
      by_cases hq : l.Is question
      · rw [pmatch_any n hq, matches_any hq]
        match s with
        | [] => simp
        | c :: s =>
          have hs' : (0 : Byte) ∉ s := fun h => hs (List.mem_cons_of_mem _ h)
          simp [ih hlen hs' htail]
      by_cases ha : l.Is asterisk
      · rw [matches_star ha]
        exact pmatch_star n hs htail ha fun s' hsuf => ih hlen (fun h0 => hs (hsuf.subset h0)) htail
      by_cases hb : l.Is bracket ∧ bracketed ls ≠ none
      · obtain ⟨⟨negate, ranges, rest⟩, hfound⟩ := Option.ne_none_iff_exists'.mp hb.2
        obtain ⟨hrest, hshort⟩ := bracketed_rest htail hfound
        rw [pmatch_set n htail hb.1 hfound, matches_set hb.1 hfound]
        refine exists_congr fun c => exists_congr fun s' => and_congr_right fun heq => ?_
        have hs' : (0 : Byte) ∉ s' := fun h => hs (heq ▸ List.mem_cons_of_mem _ h)
        rw [ih (by omega) hs' hrest]
      · have hliteral : Literal l ls := ⟨hq, ha, fun h => by_contra fun hne => hb ⟨h, hne⟩⟩
        rw [pmatch_literal n h hliteral, matches_literal hliteral]
        match s with
        | [] => simp [Ne.symm (coded_cons.mp h).1.1]
        | c :: s =>
          have hs' : (0 : Byte) ∉ s := fun h => hs (List.mem_cons_of_mem _ h)
          simp [ih hlen hs' htail]

end Bsdi.Sh
