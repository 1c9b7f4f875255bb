import Mathlib.Data.List.Basic
import Mathlib.Data.List.Flatten
import Mathlib.Data.List.TakeWhile

/-!
# Brace expansion

`globexp1` and `globexp2` of `glob.c`, and the start of `glob`. `glob0` is a parameter with a state
of its own; a pattern that has an unbalanced brace is copied only up to the brace, and what follows
in the buffer, up to a null, is another parameter.
-/

namespace Bsdi.Glob

/-- A character with the mark `M_PROTECT`. -/
abbrev Char16 := UInt16

def quote : UInt8 := 92

def lbrace : Char16 := 123
def rbrace : Char16 := 125
def comma : Char16 := 44
def lbracket : Char16 := 91
def rbracket : Char16 := 93

def mProtect : Char16 := 0x4000

def maxpathlen : Nat := 1024

/-- The loop of `GLOB_QUOTE`. -/
def protect : List UInt8 → List Char16
  | [] => []
  | [c] => [if c = quote then c.toUInt16 ||| mProtect else c.toUInt16]
  | c :: c' :: rest =>
    if c = quote then (c'.toUInt16 ||| mProtect) :: protect rest
    else c.toUInt16 :: protect (c' :: rest)

def closed (s : List Char16) : List Char16 := (s.dropWhile (· ≠ rbracket)).tail

theorem length_closed (s : List Char16) : (closed s).length ≤ s.length := by
  have hdrop := (List.dropWhile_suffix (· ≠ rbracket) (l := s)).length_le
  rw [closed, List.length_tail]
  omega

/-- The search for the balanced brace, which is `pe`. -/
def findEnd (i : Nat) : List Char16 → List Char16
  | [] => []
  | c :: pe =>
    if c = lbracket then
      if rbracket ∈ pe then findEnd i (closed pe) else findEnd i pe
    else if c = lbrace then findEnd (i + 1) pe
    else if c = rbrace then if i = 0 then c :: pe else findEnd (i - 1) pe
    else findEnd i pe
termination_by s => s.length
decreasing_by
  all_goals
    have := length_closed pe
    simp only [List.length_cons]
    omega

/-- The second loop, up to a `pe` of the given length. `pl` is the text from that pointer on, which
a bracket sets anew. -/
def alternatives (pe : Nat) (i : Nat) (pl : List Char16) : List Char16 → List (List Char16)
  | [] => []
  | c :: pm =>
    if (c :: pm).length < pe then []
    else if c = lbracket then
      if rbracket ∈ pm then
        alternatives pe i (lbracket :: pm.takeWhile (· ≠ rbracket) ++ [rbracket]) (closed pm)
      else alternatives pe i [lbracket] pm
    else if c = lbrace then alternatives pe (i + 1) (pl ++ [c]) pm
    else if c = rbrace then
      if i ≠ 0 then alternatives pe (i - 1) (pl ++ [c]) pm
      else pl :: alternatives pe i [] pm
    else if c = comma then
      if i ≠ 0 then alternatives pe i (pl ++ [c]) pm
      else pl :: alternatives pe i [] pm
    else alternatives pe i (pl ++ [c]) pm
termination_by s => s.length
decreasing_by
  all_goals
    have := length_closed pm
    simp only [List.length_cons]
    omega

section

variable {σ : Type} (glob0 : List Char16 → σ → Int × σ) (stack : List Char16 → List Char16)

def each (f : List Char16 → σ → Option (Int × σ)) : List (List Char16) → σ → Option σ
  | [], st => some st
  | p :: ps, st =>
    match f p st with
    | none => none
    | some (_, st) => each f ps st

/-- `globexp2`, with what it stores in `rv`. -/
def globexp2 (globexp1 : List Char16 → σ → Option (Int × σ)) (before ptr : List Char16) (st : σ) :
    Option (Int × σ) :=
  match findEnd 0 ptr with
  | [] => some (glob0 (before ++ stack before) st)
  | pe :: rest =>
    (each globexp1 ((alternatives (pe :: rest).length 0 [] ptr).map (before ++ · ++ rest)) st).map
      fun st => (0, st)

/-- `globexp1`; its loop ends with the first brace. -/
def globexp1 : Nat → List Char16 → σ → Option (Int × σ)
  | 0, _, _ => none
  | n + 1, pattern, st =>
    if pattern = [lbrace, rbrace] then some (glob0 pattern st)
    else
      match pattern.dropWhile (· ≠ lbrace) with
      | [] => some (glob0 pattern st)
      | _ :: ptr =>
        globexp2 glob0 stack (globexp1 n) (pattern.takeWhile (· ≠ lbrace)) ptr st

/-- `glob` with `GLOB_BRACE`. -/
def glob (quoted : Bool) (pattern : List UInt8) (st : σ) : Option (Int × σ) :=
  let patbuf :=
    ((if quoted then protect pattern else pattern.map (·.toUInt16)).take maxpathlen)
  globexp1 glob0 stack (maxpathlen + 1) patbuf st

end

def lex : List Char16 → List (List Char16)
  | [] => []
  | c :: s =>
    if c = lbracket ∧ rbracket ∈ s then
      (lbracket :: s.takeWhile (· ≠ rbracket) ++ [rbracket]) :: lex (closed s)
    else [c] :: lex s
termination_by s => s.length
decreasing_by
  all_goals
    have := length_closed s
    simp only [List.length_cons]
    omega

def group : Nat → List (List Char16) → List (List Char16) →
    Option (List (List (List Char16)) × List (List Char16))
  | _, _, [] => none
  | i, cur, p :: ps =>
    if p = [lbrace] then group (i + 1) (cur ++ [p]) ps
    else if p = [rbrace] then
      if i = 0 then some ([cur], ps) else group (i - 1) (cur ++ [p]) ps
    else if p = [comma] ∧ i = 0 then (group i [] ps).map fun g => (cur :: g.1, g.2)
    else group i (cur ++ [p]) ps

/-- The first brace outside of brackets, with the text before it, its alternatives and the text
behind it. -/
def parse (pattern : List Char16) :
    Option (List Char16 × List (List (List Char16)) × List Char16) :=
  match (lex pattern).dropWhile (· ≠ [lbrace]) with
  | [] => none
  | _ :: ps =>
    (group 0 [] ps).map fun g =>
      (((lex pattern).takeWhile (· ≠ [lbrace])).flatten, g.1, g.2.flatten)

theorem closed_append {s : List Char16} (h : rbracket ∈ s) :
    s.takeWhile (· ≠ rbracket) ++ rbracket :: closed s = s := by
  unfold closed
  induction s with
  | nil => cases h
  | cons c s ih =>
    by_cases hc : c = rbracket
    · subst hc
      simp
    · have hmem : rbracket ∈ s := (List.mem_cons.1 h).resolve_left (Ne.symm hc)
      simp only [List.takeWhile_cons, List.dropWhile_cons,
        decide_eq_true (show c ≠ rbracket from hc), if_true, List.cons_append, ih hmem]

theorem flatten_lex (s : List Char16) : (lex s).flatten = s := by
  fun_induction lex s with
  | case1 => rfl
  | case2 c s h ih =>
    obtain ⟨rfl, hmem⟩ := h
    rw [List.flatten_cons, ih, List.append_assoc, List.cons_append]
    exact congrArg _ (closed_append hmem)
  | case3 c s h ih => rw [List.flatten_cons, ih, List.singleton_append]

theorem lex_suffix {s : List Char16} : ∀ {qs ps : List (List Char16)}, lex s = qs ++ ps →
    lex ps.flatten = ps := by
  have hwhole : ∀ {s : List Char16} {ps : List (List Char16)}, lex s = ps →
      lex ps.flatten = ps := by
    rintro s ps rfl
    rw [flatten_lex]
  fun_induction lex s with
  | case1 =>
    intro qs ps h
    obtain ⟨-, rfl⟩ := List.append_eq_nil_iff.1 h.symm
    exact lex.eq_1
  | case2 c s hc ih =>
    intro qs ps h
    cases qs with
    | nil =>
      refine hwhole (s := c :: s) ?_
      rw [lex, if_pos hc]
      exact h
    | cons q qs => exact ih (List.cons.inj h).2
  | case3 c s hc ih =>
    intro qs ps h
    cases qs with
    | nil =>
      refine hwhole (s := c :: s) ?_
      rw [lex, if_neg hc]
      exact h
    | cons q qs => exact ih (List.cons.inj h).2

/-- What the second loop keeps of an alternative: the text from its last bracket on. -/
def keep (ps : List (List Char16)) : List Char16 :=
  ps.foldl (fun t p => if p.head? = some lbracket then p else t ++ p) []

theorem keep_append (ps : List (List Char16)) (p : List Char16) :
    keep (ps ++ [p]) = if p.head? = some lbracket then p else keep ps ++ p := by
  rw [keep, List.foldl_append]
  rfl

theorem length_findEnd (i : Nat) (s : List Char16) : (findEnd i s).length ≤ s.length := by
  fun_induction findEnd i s with
  | case1 => exact Nat.le_refl _
  | case2 i pe h ih =>
    have hlen := length_closed pe
    rw [List.length_cons]
    omega
  | case5 => exact Nat.le_refl _
  | _ => rw [List.length_cons]; omega

theorem alternatives_stop (pe i : Nat) (pl : List Char16) {s : List Char16} (h : s.length < pe) :
    alternatives pe i pl s = [] := by
  cases s with
  | nil => rw [alternatives]
  | cons c s => rw [alternatives, if_pos h]

/-- Both loops find the group that begins with `ps`. -/
def Agrees (i : Nat) (cur ps : List (List Char16)) (s : List Char16) : Prop :=
  match group i cur ps with
  | none => findEnd i s = []
  | some g => findEnd i s = rbrace :: g.2.flatten ∧
      alternatives (g.2.flatten.length + 1) i (keep cur) s = g.1.map keep

theorem Agrees.step {i i' : Nat} {cur ps : List (List Char16)} {p s' s : List Char16} {c : Char16}
    (h : Agrees i' (cur ++ [p]) ps s') (hlen : s'.length ≤ s.length)
    (hgroup : group i cur (p :: ps) = group i' (cur ++ [p]) ps)
    (hend : findEnd i (c :: s) = findEnd i' s')
    (halts : ∀ pe, pe ≤ (c :: s).length →
      alternatives pe i (keep cur) (c :: s) = alternatives pe i' (keep (cur ++ [p])) s') :
    Agrees i cur (p :: ps) (c :: s) := by
  unfold Agrees at h ⊢
  rw [hgroup, hend]
  cases hg : group i' (cur ++ [p]) ps with
  | none =>
    rw [hg] at h
    exact h
  | some g =>
    rw [hg] at h
    obtain ⟨hfound, hmap⟩ := h
    have hle := length_findEnd i' s'
    rw [hfound, List.length_cons] at hle
    exact ⟨hfound, (halts _ (by rw [List.length_cons]; omega)).trans hmap⟩

theorem group_lex (s : List Char16) : ∀ (i : Nat) (cur : List (List Char16)),
    Agrees i cur (lex s) s := by
  fun_induction lex s with
  | case1 =>
    intro i cur
    rw [Agrees, group, findEnd]
  | case2 c s h ih =>
    obtain ⟨rfl, hmem⟩ := h
    intro i cur
    refine (ih i _).step (length_closed s) ?_ ?_ fun pe hpe => ?_
    · rw [group, if_neg (by simp [lbracket, lbrace]), if_neg (by simp [lbracket, rbrace]),
        if_neg (by simp [lbracket, comma])]
    · rw [findEnd, if_pos rfl, if_pos hmem]
    · rw [alternatives, if_neg (Nat.not_lt.2 hpe), if_pos rfl, if_pos hmem, keep_append]
      rfl
  | case3 c s h ih =>
    intro i cur
    by_cases hbracket : c = lbracket
    · -- a bracket that is not closed also sets the start anew
      subst hbracket
      have hmem : rbracket ∉ s := fun hmem => h ⟨rfl, hmem⟩
      refine (ih i _).step (Nat.le_refl _) ?_ ?_ fun pe hpe => ?_
      · rw [group, if_neg (by decide), if_neg (by decide),
          if_neg (fun hc => absurd hc.1 (by decide))]
      · rw [findEnd, if_pos rfl, if_neg hmem]
      · rw [alternatives, if_neg (Nat.not_lt.2 hpe), if_pos rfl, if_neg hmem, keep_append]
        rfl
    · have hkeep : keep (cur ++ [[c]]) = keep cur ++ [c] := by
        rw [keep_append]
        exact if_neg fun hc => hbracket (Option.some.inj hc)
      by_cases hl : c = lbrace
      · subst hl
        refine (ih (i + 1) _).step (Nat.le_refl _) ?_ ?_ fun pe hpe => ?_
        · rw [group, if_pos rfl]
        · rw [findEnd, if_neg hbracket, if_pos rfl]
        · rw [alternatives, if_neg (Nat.not_lt.2 hpe), if_neg hbracket, if_pos rfl, hkeep]
      · have hl' : ¬ [c] = [lbrace] := fun hc => hl (List.singleton_inj.1 hc)
        by_cases hr : c = rbrace
        · subst hr
          by_cases hi : i = 0
          · subst hi
            rw [Agrees, group, if_neg hl', if_pos rfl, if_pos rfl]
            dsimp only
            rw [flatten_lex, findEnd, if_neg hbracket, if_neg hl, if_pos rfl, if_pos rfl]
            refine ⟨rfl, ?_⟩
            rw [alternatives, if_neg (by rw [List.length_cons]; omega), if_neg hbracket, if_neg hl,
              if_pos rfl, if_neg (fun hne => hne rfl), alternatives_stop _ _ _ (Nat.lt_succ_self _)]
            rfl
          · refine (ih (i - 1) _).step (Nat.le_refl _) ?_ ?_ fun pe hpe => ?_
            · rw [group, if_neg hl', if_pos rfl, if_neg hi]
            · rw [findEnd, if_neg hbracket, if_neg hl, if_pos rfl, if_neg hi]
            · rw [alternatives, if_neg (Nat.not_lt.2 hpe), if_neg hbracket, if_neg hl, if_pos rfl,
                if_pos hi, hkeep]
        · have hr' : ¬ [c] = [rbrace] := fun hc => hr (List.singleton_inj.1 hc)
          have hend : findEnd i (c :: s) = findEnd i s := by
            rw [findEnd, if_neg hbracket, if_neg hl, if_neg hr]
          by_cases hcomma : c = comma ∧ i = 0
          · obtain ⟨rfl, rfl⟩ := hcomma
            have ih := ih 0 []
            unfold Agrees at ih ⊢
            rw [group, if_neg hl', if_neg hr', if_pos ⟨rfl, rfl⟩, hend]
            cases hg : group 0 [] (lex s) with
            | none =>
              rw [hg] at ih
              exact ih
            | some g =>
              rw [hg] at ih
              obtain ⟨hfound, hmap⟩ := ih
              have hle := length_findEnd 0 s
              rw [hfound, List.length_cons] at hle
              rw [Option.map_some]
              dsimp only
              refine ⟨hfound, ?_⟩
              rw [alternatives, if_neg (by rw [List.length_cons]; omega), if_neg hbracket,
                if_neg hl, if_neg hr, if_pos rfl, if_neg (fun hne => hne rfl)]
              exact congrArg _ hmap
          · refine (ih i _).step (Nat.le_refl _) ?_ hend fun pe hpe => ?_
            · rw [group, if_neg hl', if_neg hr',
                if_neg (fun hc => hcomma ⟨List.singleton_inj.1 hc.1, hc.2⟩)]
            · rw [alternatives, if_neg (Nat.not_lt.2 hpe), if_neg hbracket, if_neg hl, if_neg hr,
                hkeep]
              split
              · rename_i hc
                rw [if_pos (fun hi => hcomma ⟨hc, hi⟩)]
              · rfl

theorem group_length {ps : List (List Char16)} : ∀ {i : Nat} {cur : List (List Char16)}
    {g : List (List (List Char16)) × List (List Char16)}, group i cur ps = some g →
      g.2.flatten.length < ps.flatten.length ∧
      ∀ a ∈ g.1,
        a.flatten.length + g.2.flatten.length < cur.flatten.length + ps.flatten.length := by
  induction ps with
  | nil =>
    intro i cur g h
    cases h
  | cons p ps ih =>
    intro i cur g h
    have hcons : (p :: ps).flatten.length = p.length + ps.flatten.length := by
      rw [List.flatten_cons, List.length_append]
    have hnext : ∀ i', group i' (cur ++ [p]) ps = some g →
        g.2.flatten.length < (p :: ps).flatten.length ∧ ∀ a ∈ g.1,
          a.flatten.length + g.2.flatten.length <
            cur.flatten.length + (p :: ps).flatten.length := by
      intro i' h
      obtain ⟨hpost, has⟩ := ih h
      refine ⟨by omega, fun a ha => ?_⟩
      have hlen := has a ha
      simp only [List.flatten_append, List.length_append, List.flatten_cons, List.flatten_nil,
        List.append_nil] at hlen
      omega
    rw [group] at h
    split at h
    · exact hnext _ h
    · split at h
      · rename_i hr
        subst hr
        split at h
        · obtain rfl := Option.some.inj h
          have hone : ([rbrace] : List Char16).length = 1 := rfl
          refine ⟨by dsimp only; omega, fun a ha => ?_⟩
          obtain rfl := List.mem_singleton.1 ha
          dsimp only
          omega
        · exact hnext _ h
      · split at h
        · rename_i hc
          obtain ⟨g', hg, rfl⟩ := Option.map_eq_some_iff.1 h
          obtain ⟨hpost, has⟩ := ih hg
          have hone : p.length = 1 := by rw [hc.1]; rfl
          refine ⟨by dsimp only; omega, fun a ha => ?_⟩
          rcases List.mem_cons.1 ha with rfl | ha
          · dsimp only
            omega
          · have hlen := has a ha
            rw [List.flatten_nil, List.length_nil] at hlen
            dsimp only
            omega
        · exact hnext _ h

theorem parse_eq {pattern before post : List Char16} {as : List (List (List Char16))}
    (h : parse pattern = some (before, as, post)) :
    ∃ ps g, pattern = before ++ lbrace :: ps.flatten ∧ lex ps.flatten = ps ∧ group 0 [] ps = some (as, g) ∧ post = g.flatten := by
  unfold parse at h
  split at h
  · cases h
  · rename_i p ps hdrop
    obtain ⟨⟨as', g⟩, hg, heq⟩ := Option.map_eq_some_iff.1 h
    obtain ⟨rfl, rfl, rfl⟩ : _ ∧ _ ∧ _ := by
      simpa only [Prod.mk.injEq] using heq
    have hp : p = [lbrace] := by
      have hhead := List.head?_dropWhile_not (· ≠ [lbrace]) (lex pattern)
      rw [hdrop] at hhead
      simpa using hhead
    have hsplit := List.takeWhile_append_dropWhile (p := (· ≠ [lbrace])) (l := lex pattern)
    rw [hdrop, hp] at hsplit
    refine ⟨ps, g, ?_, ?_, hg, rfl⟩
    · have hflat := flatten_lex pattern
      rw [← hsplit, List.flatten_append, List.flatten_cons] at hflat
      exact hflat.symm
    · refine @lex_suffix pattern ((lex pattern).takeWhile (· ≠ [lbrace]) ++ [[lbrace]]) ps ?_
      rw [List.append_assoc]
      exact hsplit.symm

theorem parse_length {pattern before post : List Char16} {as : List (List (List Char16))}
    (h : parse pattern = some (before, as, post)) {a : List (List Char16)} (ha : a ∈ as) :
    (before ++ a.flatten ++ post).length < pattern.length := by
  obtain ⟨ps, g, rfl, -, hg, rfl⟩ := parse_eq h
  have hlen := (group_length hg).2 a ha
  simp only [List.length_append, List.length_cons, List.flatten_nil, List.length_nil] at hlen ⊢
  omega

/-- The patterns without braces that a pattern stands for. A single pair of braces is kept. -/
def expand (pattern : List Char16) : List (List Char16) :=
  if pattern = [lbrace, rbrace] then [pattern]
  else
    match _h : parse pattern with
    | none => [pattern]
    | some (before, as, post) =>
      as.attach.flatMap fun a => expand (before ++ a.1.flatten ++ post)
termination_by pattern.length
decreasing_by exact parse_length _h a.2

def Grouped (pattern : List Char16) : Prop :=
  pattern ≠ [lbrace, rbrace] ∧ (parse pattern).isSome = true

theorem expand_single {pattern : List Char16} (h : ¬ Grouped pattern) :
    expand pattern = [pattern] := by
  rw [expand]
  split
  · rfl
  · rename_i hne
    split
    · rfl
    · rename_i hparse
      exact absurd ⟨hne, by rw [hparse]; rfl⟩ h

theorem expand_group {pattern before post : List Char16} {as : List (List (List Char16))}
    (hne : pattern ≠ [lbrace, rbrace]) (h : parse pattern = some (before, as, post)) :
    expand pattern = as.flatMap fun a => expand (before ++ a.flatten ++ post) := by
  rw [expand, if_neg hne]
  split
  · rename_i hparse
    rw [h] at hparse
    cases hparse
  · rename_i before' as' post' hparse
    rw [h] at hparse
    obtain ⟨rfl, rfl, rfl⟩ : before = before' ∧ as = as' ∧ post = post' := by
      simpa only [Option.some.injEq, Prod.mk.injEq] using hparse
    exact congrArg List.flatten (@List.attach_map_val _ _ as
      fun a => expand (before ++ a.flatten ++ post))

/-- In the pattern, and in all that is made of it, the first brace is not in a bracket expression
and begins a group, and no bracket in its alternatives has text before it. -/
inductive Clean : List Char16 → Prop
  | protect : Clean [lbrace, rbrace]
  | plain {pattern : List Char16} (h : lbrace ∉ pattern) : Clean pattern
  | group {pattern before post : List Char16} {as : List (List (List Char16))}
    (hne : pattern ≠ [lbrace, rbrace]) (hparse : parse pattern = some (before, as, post))
    (hfirst : lbrace ∉ before) (hkeep : ∀ a ∈ as, keep a = a.flatten)
    (h : ∀ a ∈ as, Clean (before ++ a.flatten ++ post)) : Clean pattern

section

variable {σ : Type} (glob0 : List Char16 → σ → Int × σ) (stack : List Char16 → List Char16)

def run : List (List Char16) → σ → List Int × σ
  | [], st => ([], st)
  | p :: ps, st => ((glob0 p st).1 :: (run ps (glob0 p st).2).1, (run ps (glob0 p st).2).2)

theorem run_append (ps qs : List (List Char16)) (st : σ) : run glob0 (ps ++ qs) st =
    ((run glob0 ps st).1 ++ (run glob0 qs (run glob0 ps st).2).1,
      (run glob0 qs (run glob0 ps st).2).2) := by
  induction ps generalizing st with
  | nil => rfl
  | cons p ps ih => simp only [List.cons_append, run, ih]

theorem each_eq {f : List Char16 → σ → Option (Int × σ)} {α : Type} (g : α → List Char16)
    (e : α → List (List Char16)) (l : List α)
    (h : ∀ a ∈ l, ∀ st, ∃ rv, f (g a) st = some (rv, (run glob0 (e a) st).2)) (st : σ) :
    each f (l.map g) st = some (run glob0 (l.flatMap e) st).2 := by
  induction l generalizing st with
  | nil => rfl
  | cons a l ih =>
    obtain ⟨rv, hrv⟩ := h a List.mem_cons_self st
    rw [List.map_cons, each, hrv]
    dsimp only
    rw [ih (fun b hb => h b (List.mem_cons_of_mem a hb)), List.flatMap_cons, run_append]

theorem not_grouped {pattern : List Char16} (h : lbrace ∉ pattern) : ¬ Grouped pattern := by
  rintro ⟨-, hsome⟩
  obtain ⟨⟨before, as, post⟩, hparse⟩ := Option.isSome_iff_exists.1 hsome
  obtain ⟨ps, g, rfl, -⟩ := parse_eq hparse
  exact h (by simp)

theorem globexp1_clean {pattern : List Char16} (hclean : Clean pattern) : ∀ (n : Nat) (st : σ),
    pattern.length < n → ∃ rv,
      globexp1 glob0 stack n pattern st = some (rv, (run glob0 (expand pattern) st).2) ∧
        (Grouped pattern → rv = 0) ∧ (¬ Grouped pattern → rv = (glob0 pattern st).1) := by
  induction hclean with
  | protect =>
    intro n st hn
    have hgroup : ¬ Grouped [lbrace, rbrace] := fun h => h.1 rfl
    obtain ⟨n, rfl⟩ := Nat.exists_eq_succ_of_ne_zero (Nat.ne_of_gt (Nat.lt_of_le_of_lt
      (Nat.zero_le _) hn))
    refine ⟨(glob0 [lbrace, rbrace] st).1, ?_, fun h => absurd h hgroup, fun _ => rfl⟩
    rw [globexp1, if_pos rfl, expand_single hgroup]
    rfl
  | @plain pattern h =>
    intro n st hn
    have hgroup := not_grouped h
    obtain ⟨n, rfl⟩ := Nat.exists_eq_succ_of_ne_zero (Nat.ne_of_gt (Nat.lt_of_le_of_lt
      (Nat.zero_le _) hn))
    refine ⟨(glob0 pattern st).1, ?_, fun h => absurd h hgroup, fun _ => rfl⟩
    have hdrop : pattern.dropWhile (· ≠ lbrace) = [] :=
      List.dropWhile_eq_nil_iff.2 fun c hc => decide_eq_true fun heq => h (heq ▸ hc)
    rw [globexp1, hdrop, expand_single hgroup]
    split <;> rfl
  | @group pattern before post as hne hparse hfirst hkeep h ih =>
    intro n st hn
    obtain ⟨n, rfl⟩ := Nat.exists_eq_succ_of_ne_zero (Nat.ne_of_gt (Nat.lt_of_le_of_lt
      (Nat.zero_le _) hn))
    have hgrouped : Grouped pattern := ⟨hne, by rw [hparse]; rfl⟩
    obtain ⟨ps, g, hpattern, hlex, hg, hpost⟩ := parse_eq hparse
    have hspan : pattern.takeWhile (· ≠ lbrace) = before ∧
        pattern.dropWhile (· ≠ lbrace) = lbrace :: ps.flatten := by
      have hbefore : ∀ c ∈ before, decide (c ≠ lbrace) = true :=
        fun c hc => decide_eq_true fun heq => hfirst (heq ▸ hc)
      rw [hpattern, List.takeWhile_append_of_pos hbefore, List.dropWhile_append_of_pos hbefore,
        List.takeWhile_cons_of_neg (by decide), List.dropWhile_cons_of_neg (by decide),
        List.append_nil]
      exact ⟨rfl, rfl⟩
    have hagree := group_lex ps.flatten 0 []
    rw [hlex, Agrees, hg] at hagree
    obtain ⟨hfound, halts⟩ := hagree
    have heach := each_eq glob0 (f := globexp1 glob0 stack n)
      (fun a : List (List Char16) => before ++ a.flatten ++ post)
      (fun a => expand (before ++ a.flatten ++ post)) as (fun a ha st => by
        obtain ⟨rv, hrv, -⟩ := ih a ha n st
          (Nat.lt_of_lt_of_le (parse_length hparse ha) (Nat.le_of_lt_succ hn))
        exact ⟨rv, hrv⟩) st
    refine ⟨0, ?_, fun _ => rfl, fun hc => absurd hgrouped hc⟩
    rw [globexp1, if_neg hne, hspan.1, hspan.2]
    dsimp only
    unfold globexp2
    rw [hfound]
    dsimp only
    have htexts : (as.map keep).map (before ++ · ++ g.flatten) =
        as.map fun a => before ++ a.flatten ++ post := by
      rw [List.map_map, hpost]
      exact List.map_congr_left fun a ha => by rw [Function.comp, hkeep a ha]
    have hnil : keep [] = [] := rfl
    rw [hnil] at halts
    rw [List.length_cons, halts, htexts, heach, expand_group hne hparse]
    rfl

/-- Every expansion has been globbed if there was no error, and an error is one of theirs. -/
def Right (r : Option (Int × σ)) (codes : List Int) (last : σ) : Prop :=
  ∃ rv st, r = some (rv, st) ∧ ((∀ c ∈ codes, c = 0) → rv = 0 ∧ st = last) ∧
    ((∃ c ∈ codes, c ≠ 0) → rv ∈ codes ∧ rv ≠ 0)

def text (quoted : Bool) (pattern : List UInt8) : List Char16 :=
  if quoted then protect pattern else pattern.map (·.toUInt16)

/-- A clean pattern is expanded as in `csh`, and the error of an expansion is lost. -/
theorem glob_iff {quoted : Bool} {pattern : List UInt8}
    (hlen : (text quoted pattern).length ≤ maxpathlen) (hclean : Clean (text quoted pattern))
    (st : σ) : Right (glob glob0 stack quoted pattern st)
        (run glob0 (expand (text quoted pattern)) st).1
        (run glob0 (expand (text quoted pattern)) st).2 ↔
      (Grouped (text quoted pattern) →
        ∀ c ∈ (run glob0 (expand (text quoted pattern)) st).1, c = 0) := by
  have hglob : glob glob0 stack quoted pattern st =
      globexp1 glob0 stack (maxpathlen + 1) (text quoted pattern) st := by
    unfold glob
    dsimp only
    rw [← text, List.take_of_length_le hlen]
  obtain ⟨rv, hrun, hgrouped, hsingle⟩ :=
    globexp1_clean glob0 stack hclean (maxpathlen + 1) st (Nat.lt_succ_of_le hlen)
  rw [hglob, hrun]
  by_cases hg : Grouped (text quoted pattern)
  · obtain rfl := hgrouped hg
    constructor
    · rintro ⟨rv, st', heq, -, herror⟩ - c hc
      obtain ⟨rfl, rfl⟩ := Prod.mk.inj (Option.some.inj heq)
      by_contra hne
      exact (herror ⟨c, hc, hne⟩).2 rfl
    · intro h
      exact ⟨0, _, rfl, fun _ => ⟨rfl, rfl⟩, fun ⟨c, hc, hne⟩ => absurd (h hg c hc) hne⟩
  · obtain rfl := hsingle hg
    refine ⟨fun _ hc => absurd hc hg, fun _ => ⟨_, _, rfl, fun h => ?_, ?_⟩⟩
    · refine ⟨h _ ?_, rfl⟩
      rw [expand_single hg]
      exact List.mem_cons_self
    · rintro ⟨c, hc, hne⟩
      rw [expand_single hg] at hc ⊢
      obtain rfl := List.mem_singleton.1 hc
      exact ⟨List.mem_cons_self, hne⟩

end

/-- `glob0` as it stands for a pattern that matches nothing. -/
def record (pattern : List Char16) (st : List (List Char16)) : Int × List (List Char16) :=
  (0, st ++ [pattern])

theorem glob_alternatives : Right (glob record (fun _ => []) false [123, 97, 44, 98, 125] [])
    [0, 0] [[97], [98]] := by
  have hparse : parse (text false [123, 97, 44, 98, 125]) = some ([], [[[97]], [[98]]], []) := by
    decide +kernel
  have hclean : Clean (text false [123, 97, 44, 98, 125]) := by
    refine .group (by decide) hparse (by decide) (fun a ha => ?_) (fun a ha => .plain ?_)
    · rcases List.mem_pair.1 ha with rfl | rfl <;> decide
    · rcases List.mem_pair.1 ha with rfl | rfl <;> decide
  have hexpand : expand (text false [123, 97, 44, 98, 125]) = [[97], [98]] := by decide +kernel
  have h := (glob_iff record (fun _ => []) (by decide) hclean []).2 fun _ c hc => by
    rw [hexpand] at hc
    rcases List.mem_pair.1 hc with rfl | rfl <;> rfl
  rw [hexpand] at h
  exact h

/-- `{a[b]c,d}` loses its first character. -/
theorem glob_bracket : glob record (fun _ => []) false [123, 97, 91, 98, 93, 99, 44, 100, 125] [] =
      some (0, [[91, 98, 93, 99], [100]]) ∧
    expand (text false [123, 97, 91, 98, 93, 99, 44, 100, 125]) =
      [[97, 91, 98, 93, 99], [100]] := by
  refine ⟨by decide +kernel, by decide +kernel⟩

end Bsdi.Glob
