import Bsdi.Sh.Expand

/-!
# Quoted text is inert

A string in single or double quotes is one argument, with the bytes it has, whatever it contains.
The tokenizer puts `CTLESC` before each byte that has a meaning to a later stage, and the stages
pass the pairs on until the escapes go away.
-/

namespace Bsdi.Sh

inductive Quote
  | single | double
  deriving DecidableEq, Repr

namespace Quote

def mark : Quote → Byte
  | single => squote
  | double => dquote

def table : Quote → Table
  | single => .sq
  | double => .dq

def Allowed : Quote → Byte → Prop
  | single, c => c ≠ 0 ∧ c ≠ squote
  | double, c => c ≠ 0 ∧ c ≠ dollar ∧ c ≠ backquote ∧ c ≠ backslash ∧ c ≠ dquote

instance : (q : Quote) → (c : Byte) → Decidable (q.Allowed c)
  | single, _ => inferInstanceAs (Decidable (_ ∧ _))
  | double, _ => inferInstanceAs (Decidable (_ ∧ _))

def escByte (q : Quote) (c : Byte) : List Byte := if q.table.entry c = .cctl then [ctlesc, c] else [c]

def esc (q : Quote) (s : List Byte) : List Byte := s.flatMap q.escByte

end Quote

def Delimited (rest : List Byte) : Prop := Table.base.cls rest.head? ∈ [Class.cnl, .cspcl, .ceof]

instance (rest : List Byte) : Decidable (Delimited rest) := inferInstanceAs (Decidable (_ ∈ _))

def unslashed (parsebackquote : Bool) : List Byte → List Byte
  | [] => []
  | [c] => [c]
  | c :: d :: l =>
    if parsebackquote && c = backslash && d = backquote then d :: unslashed parsebackquote l
    else c :: unslashed parsebackquote (d :: l)

/-- The quoted string `s` is read as a word and expanded to `s` alone. -/
def Inert {α : Type} (cmds : Commands α) (subst : Substitutions α) (files : Files)
    (parsebackquote : Bool) (ifs : List Byte) (nparam : Nat) (fflag : Bool) (flag : Flags)
    (q : Quote) (s rest : List Byte) : Prop :=
  ∃ text quoteflag backquotelist,
    (∀ n, s.length + 3 ≤ n → readtoken1 cmds parsebackquote n (some q.mark) .base none false
      (s ++ q.mark :: rest) = .ok (.tword text quoteflag backquotelist, rest)) ∧
    ∀ n, 2 * s.length < n → expandarg subst files ifs nparam fflag n text backquotelist flag = some [s]

section tables

variable {q : Quote} {c : Byte}

theorem Quote.Allowed.entry (h : q.Allowed c) : q.table.entry c = .cword ∨ q.table.entry c = .cctl ∨
    q.table.entry c = .cnl ∨ q.table.entry c = .cendvar := by
  cases q with
  | single =>
    obtain ⟨-, h⟩ := h
    simp only [Quote.table, Table.entry, add, initTable, List.mem_singleton, h, if_false]
    split_ifs <;> simp
  | double =>
    obtain ⟨-, h₁, h₂, h₃, h₄⟩ := h
    simp only [Quote.table, Table.entry, add, initTable, List.mem_singleton, h₁, h₂, h₃, h₄, if_false]
    split_ifs <;> simp

theorem plain_of_entry (h : q.table.entry c ≠ .cctl) :
    c ∉ quotedSpecial ∧ c ∉ [ctlesc, ctlvar, ctlendvar, ctlbackq, ctlbackq + ctlquote, ctlari,
      ctlendari] := by
  have hspecial : c ∉ quotedSpecial := by
    intro hc
    cases q <;> simp [Quote.table, Table.entry, add, hc] at h
  refine ⟨hspecial, fun hctl => h ?_⟩
  have hinit : initTable c = .cctl := by rw [initTable, if_pos hctl]
  have hne : c ≠ newline ∧ c ≠ squote ∧ c ≠ dquote ∧ c ≠ backslash ∧ c ≠ backquote ∧ c ≠ dollar ∧
      c ≠ 125 := by
    simp only [List.mem_cons, List.not_mem_nil, or_false] at hctl
    rcases hctl with rfl | rfl | rfl | rfl | rfl | rfl | rfl <;> decide
  obtain ⟨h₁, h₂, h₃, h₄, h₅, h₆, h₇⟩ := hne
  cases q <;> simp [Quote.table, Table.entry, add, hspecial, hinit, h₁, h₂, h₃, h₄, h₅, h₆, h₇]

end tables

section reading

variable {α : Type} {cmds : Commands α} {q : Quote} {pbq : Bool} {n : Nat} {c : Byte}
  {r : Reader α} {s rest : List Byte}

def Reader.before (r : Reader α) (l : List Byte) : Reader α := { r with input := l.tail }

theorem readloop_quoted (hc : q.Allowed c) (hr : r.table = q.table) (hv : r.varnest = 0)
    (hslash : ¬ (pbq = true ∧ c = backslash ∧ rest.head? = some backquote)) :
    readloop cmds pbq none false (n + 1) (some c) (r.before (c :: rest)) =
      readloop cmds pbq none false n rest.head? ((r.put (q.escByte c)).before rest) := by
  have hunslash : unslash pbq (some c) (r.before (c :: rest)) = (some c, r.before (c :: rest)) := by
    unfold unslash
    rw [if_neg]
    simp only [Bool.and_eq_true, decide_eq_true_eq, Option.some.injEq, not_and, and_imp]
    exact fun hp hb hq => hslash ⟨hp, hb, hq⟩
  have hne : r.table ≠ .base := by
    rw [hr]
    cases q <;> decide
  rw [readloop, hunslash]
  -- A newline leads to the outer loop, which does nothing but in a here document.
  rcases hc.entry with he | he | he | he <;>
    simp [switch, Reader.before, hr, hr ▸ hne, hv, he, checkend, Reader.pgetc, Reader.put, Quote.escByte]

theorem readloop_unslash (hr : r.table = .sq) :
    readloop cmds true none false (n + 1) (some backslash) (r.before (backslash :: backquote :: rest)) =
      readloop cmds true none false n rest.head? ((r.put [backquote]).before rest) := by
  have hunslash : unslash true (some backslash) (r.before (backslash :: backquote :: rest)) =
      (some backquote, r.before (backquote :: rest)) := rfl
  have he : Table.sq.entry backquote = .cword := by decide
  rw [readloop, hunslash]
  simp [switch, Reader.before, hr, he, Reader.pgetc, Reader.put]

theorem readloop_string (cmds : Commands α) (pbq : Bool) (n : Nat) (rest : List Byte)
    (hs : ∀ c ∈ s, q.Allowed c) (hr : r.table = q.table) (hv : r.varnest = 0) :
    ∃ m, n ≤ m ∧ readloop cmds pbq none false (n + s.length) (s ++ q.mark :: rest).head?
        (r.before (s ++ q.mark :: rest)) =
      readloop cmds pbq none false m (some q.mark)
        ((r.put (q.esc (unslashed pbq s))).before (q.mark :: rest)) := by
  induction s using unslashed.induct pbq generalizing r n with
  | case1 => exact ⟨n, Nat.le_refl n, by simp [unslashed, Quote.esc, Reader.put, Reader.before]⟩
  | case2 c =>
    have hne : q.mark ≠ backquote := by cases q <;> decide
    refine ⟨n, Nat.le_refl n, ?_⟩
    have hslash : ¬ (pbq = true ∧ c = backslash ∧ (q.mark :: rest).head? = some backquote) := by
      simp [hne]
    simpa [unslashed, Quote.esc] using readloop_quoted (hs c (by simp)) hr hv hslash
  | case3 c d l hdrop ih =>
    simp only [Bool.and_eq_true, decide_eq_true_eq] at hdrop
    obtain ⟨⟨rfl, rfl⟩, rfl⟩ := hdrop
    have hq : q = .single := by
      cases q with
      | single => rfl
      | double => exact absurd rfl (hs backslash (by simp)).2.2.2.1
    subst hq
    obtain ⟨m, hm, hrun⟩ := ih (n + 1) (r := r.put [backquote])
      (fun c hc => hs c (by simp [hc])) hr hv
    refine ⟨m, by omega, ?_⟩
    have hesc : Quote.single.escByte backquote = [backquote] := by decide
    simp only [List.length_cons, List.cons_append, List.head?_cons, unslashed, decide_true,
      Bool.and_self, if_true, Quote.esc, List.flatMap_cons, hesc]
    rw [show n + (l.length + 1 + 1) = n + 1 + l.length + 1 by omega, readloop_unslash hr, hrun]
    simp [Reader.put, Reader.before, Quote.esc]
  | case4 c d l hkeep ih =>
    obtain ⟨m, hm, hrun⟩ := ih n (r := r.put (q.escByte c))
      (fun c hc => hs c (by simp [hc])) hr hv
    refine ⟨m, hm, ?_⟩
    have hslash : ¬ (pbq = true ∧ c = backslash ∧
        (d :: (l ++ q.mark :: rest)).head? = some backquote) := by
      simpa using hkeep
    simp only [List.length_cons, List.cons_append, List.head?_cons] at hrun ⊢
    rw [show n + (l.length + 1 + 1) = n + (l.length + 1) + 1 by omega,
      readloop_quoted (hs c (by simp)) hr hv hslash, List.head?_cons, hrun, unslashed, if_neg hkeep]
    simp [Reader.put, Reader.before, Quote.esc]

theorem readloop_end (hrest : Delimited rest) (hr : r.table = .base) (hv : r.varnest = 0)
    (hq : r.quotef ≠ 0) :
    readloop cmds pbq none false (n + 1) rest.head? (r.before rest) =
      .ok (.tword r.out r.quotef r.bqlist, rest) := by
  cases rest with
  | nil => simp [readloop, unslash, switch, endword, Reader.before, hr, hv]
  | cons d rest =>
    have hd : Table.base.entry d = .cnl ∨ Table.base.entry d = .cspcl ∨ Table.base.entry d = .ceof := by
      simpa [Delimited, Table.cls] using hrest
    have hne : d ≠ backslash := by
      rintro rfl
      revert hd
      decide
    rcases hd with he | he | he <;>
      simp [readloop, unslash, switch, endword, Reader.before, hr, hv, hq, he, hne]

theorem readtoken1_quoted (hs : ∀ c ∈ s, q.Allowed c) (hrest : Delimited rest)
    (hn : s.length + 3 ≤ n) :
    readtoken1 cmds pbq n (some q.mark) .base none false (s ++ q.mark :: rest) =
      .ok (.tword (q.esc (unslashed pbq s)) 1 [], rest) := by
  obtain ⟨k, rfl⟩ : ∃ k, n = k + 2 + s.length + 1 := ⟨n - (s.length + 3), by omega⟩
  -- The opening quote.
  let r₀ : Reader α := ⟨q.table, 0, q.table = .dq, 0, 0, 0, .base, [], [], []⟩
  have hopen : readtoken1 cmds pbq (k + 2 + s.length + 1) (some q.mark) .base none false
      (s ++ q.mark :: rest) = readloop cmds pbq none false (k + 2 + s.length)
        (s ++ q.mark :: rest).head? (r₀.before (s ++ q.mark :: rest)) := by
    cases q <;> cases pbq <;> rfl
  obtain ⟨m, hm, hrun⟩ := readloop_string cmds pbq (k + 2) rest (r := r₀) hs rfl rfl
  rw [hopen, hrun]
  obtain ⟨j, rfl⟩ : ∃ j, m = j + 1 + 1 := ⟨m - 2, by omega⟩
  -- The closing one.
  let r₁ : Reader α := ⟨.base, 1, false, 0, 0, 0, .base, q.esc (unslashed pbq s), [], []⟩
  have hclose : readloop cmds pbq none false (j + 1 + 1) (some q.mark)
      ((r₀.put (q.esc (unslashed pbq s))).before (q.mark :: rest)) =
      readloop cmds pbq none false (j + 1) rest.head? (r₁.before rest) := by
    cases q <;> cases pbq <;> rfl
  rw [hclose]
  exact readloop_end hrest rfl rfl (by simp [r₁])

end reading

section expanding

variable {α : Type} {subst : Substitutions α} {files : Files} {q : Quote} {c : Byte} {s : List Byte}
  {flag : Flags}

theorem Quote.escByte_of_ctl (h : q.table.entry c = .cctl) : q.escByte c = [ctlesc, c] := if_pos h

theorem Quote.escByte_of_plain (h : q.table.entry c ≠ .cctl) : q.escByte c = [c] := if_neg h

@[simp]
theorem Quote.esc_nil : q.esc [] = [] := rfl

@[simp]
theorem Quote.esc_cons : q.esc (c :: s) = q.escByte c ++ q.esc s := rfl

theorem argloop_esc {n : Nat} {firsteq : Bool} {e : Expansion α} (hfull : flag.full = true)
    (hn : s.length < n) : argloop subst flag n firsteq (q.esc s) e = some (e.put (q.esc s)) := by
  induction s generalizing n e with
  | nil =>
    obtain ⟨n, rfl⟩ : ∃ k, n = k + 1 := ⟨n - 1, by omega⟩
    simp [argloop, Expansion.put]
  | cons c s ih =>
    obtain ⟨n, rfl⟩ : ∃ k, n = k + 1 := ⟨n - 1, by omega⟩
    have hn' : s.length < n := by simpa using hn
    by_cases h : q.table.entry c = .cctl
    · have hne : ctlesc ≠ ctlendvar := by decide
      simp [Quote.escByte_of_ctl h, argloop, hne, Flags.quotes, hfull, ih hn', Expansion.put]
    · obtain ⟨hspecial, hctl⟩ := plain_of_entry h
      have hor : ctlbackq ||| ctlquote = ctlbackq + ctlquote := by decide
      simp only [quotedSpecial, List.mem_cons, List.not_mem_nil, or_false, not_or] at hspecial hctl
      simp [Quote.escByte_of_plain h, argloop, hspecial, hctl, hor, ih hn', Expansion.put]

theorem argstr_esc {n : Nat} {e : Expansion α} (hfull : flag.full = true) (hn : s.length < n) :
    argstr subst n (q.esc s) flag e = some (e.put (q.esc s)) := by
  have htilde : (q.esc s).head? ≠ some tilde := by
    cases s with
    | nil => simp
    | cons c s =>
      by_cases h : q.table.entry c = .cctl
      · have hne : ctlesc ≠ tilde := by decide
        simp [Quote.escByte_of_ctl h, hne]
      · have hc := (plain_of_entry h).1
        have hne : c ≠ tilde := by
          rintro rfl
          exact hc (by decide)
        simp [Quote.escByte_of_plain h, hne]
  simp [argstr, htilde, argloop_esc hfull hn]

theorem rmescapes_esc : rmescapes (q.esc s) = s := by
  induction s with
  | nil => rfl
  | cons c s ih =>
    by_cases h : q.table.entry c = .cctl
    · simp [Quote.escByte_of_ctl h, rmescapes, ih]
    · have hc : c ≠ ctlesc := by
        rintro rfl
        exact (plain_of_entry h).2 (by simp)
      rw [Quote.esc_cons, Quote.escByte_of_plain h, List.singleton_append]
      cases hs : q.esc s with
      | nil => simpa [rmescapes, hc, hs] using ih
      | cons d l =>
        rw [rmescapes, if_neg hc, ← hs, ih]

theorem metascan_esc {n start : Nat} (pre : List Byte) (hs : (0 : Byte) ∉ s) :
    (metascan (pre ++ q.esc s) n pre.length false start).1 = false := by
  induction s generalizing n start pre with
  | nil => cases n <;> simp [metascan]
  | cons c s ih =>
    cases n with
    | zero => rfl
    | succ n =>
      rw [List.mem_cons, not_or] at hs
      by_cases h : q.table.entry c = .cctl
      · have hesc : ctlesc ≠ 0 ∧ ctlesc ≠ 42 ∧ ctlesc ≠ 63 ∧ ctlesc ≠ 91 ∧ ctlesc ≠ 33 := by decide
        obtain ⟨h₀, h₁, h₂, h₃, h₄⟩ := hesc
        have hnext : ∀ start, (metascan (pre ++ ctlesc :: c :: q.esc s) n (pre.length + 1 + 1) false
            start).1 = false := by
          intro start
          simpa using ih (pre ++ [ctlesc, c]) hs.2
        have hhead : (pre ++ ctlesc :: c :: q.esc s).getD pre.length 0 = ctlesc := by simp
        have hbyte : (pre ++ ctlesc :: c :: q.esc s).getD (pre.length + 1) 0 = c := by simp
        simp only [Quote.esc_cons, Quote.escByte_of_ctl h, List.cons_append, List.nil_append, metascan,
          hhead, hbyte, h₀, h₁, h₂, h₃, h₄, decide_false, Bool.false_and, Bool.or_self, if_false, if_true,
          Bool.false_eq_true]
        split
        · exact hnext _
        · exact hnext _
      · have hnext : ∀ start, (metascan (pre ++ c :: q.esc s) n (pre.length + 1) false start).1 = false := by
          intro start
          simpa using ih (pre ++ [c]) hs.2
        obtain ⟨hspecial, hctl⟩ := plain_of_entry h
        simp only [quotedSpecial, List.mem_cons, List.not_mem_nil, or_false, not_or] at hspecial hctl
        have hhead : (pre ++ c :: q.esc s).getD pre.length 0 = c := by simp
        simp only [Quote.esc_cons, Quote.escByte_of_plain h, List.cons_append, List.nil_append, metascan,
          hhead, Ne.symm hs.1, hspecial, hctl, decide_false, Bool.false_and, Bool.or_self, if_false]
        exact hnext _

theorem expandmeta_esc {fflag : Bool} (hs : (0 : Byte) ∉ s) :
    expandmeta files fflag (q.esc s) = [s] := by
  have hscan : (metascan (q.esc s) ((q.esc s).length + 1) 0 false 0).1 = false :=
    metascan_esc [] hs
  unfold expandmeta
  split
  · rw [rmescapes_esc]
  · simp [expmeta, hscan, rmescapes_esc]

theorem expandarg_esc {ifs : List Byte} {nparam n : Nat} {fflag : Bool} (hfull : flag.full = true)
    (hs : (0 : Byte) ∉ s) (hn : s.length < n) :
    expandarg subst files ifs nparam fflag n (q.esc s) [] flag = some [s] := by
  have hmeta : expandmeta files fflag (q.esc s) = [s] := expandmeta_esc hs
  simp [expandarg, argstr_esc hfull hn, hfull, Expansion.put, ifsbreakup, hmeta]

end expanding

section slashes

variable {pbq : Bool} {s : List Byte}

theorem unslashed_sublist (pbq : Bool) (s : List Byte) : (unslashed pbq s).Sublist s := by
  induction s using unslashed.induct pbq with
  | case1 => simp [unslashed]
  | case2 c => simp [unslashed]
  | case3 c d l hdrop ih =>
    rw [unslashed, if_pos hdrop]
    exact (ih.cons_cons d).cons c
  | case4 c d l hkeep ih =>
    rw [unslashed, if_neg hkeep]
    exact ih.cons_cons c

theorem unslashed_eq_self : unslashed pbq s = s ↔ ¬ (pbq = true ∧ [backslash, backquote] <:+: s) := by
  induction s using unslashed.induct pbq with
  | case1 => simp [unslashed]
  | case2 c => simp [unslashed, List.infix_cons_iff]
  | case3 c d l hdrop ih =>
    have hlen := (unslashed_sublist pbq l).length_le
    rw [unslashed, if_pos hdrop]
    simp only [Bool.and_eq_true, decide_eq_true_eq] at hdrop
    obtain ⟨⟨rfl, rfl⟩, rfl⟩ := hdrop
    constructor
    · intro h
      exact absurd (congrArg List.length h) (by simp only [List.length_cons]; omega)
    · intro h
      exact absurd ⟨rfl, [], l, rfl⟩ h
  | case4 c d l hkeep ih =>
    rw [unslashed, if_neg hkeep, List.cons_inj_right]
    refine ih.trans ?_
    rw [List.infix_cons_iff (a := c)]
    simp only [Bool.and_eq_true, decide_eq_true_eq] at hkeep
    have hhead : ¬ (pbq = true ∧ [backslash, backquote] <+: c :: d :: l) := by
      rintro ⟨hp, t, ht⟩
      simp only [List.cons_append, List.nil_append, List.cons.injEq] at ht
      exact hkeep ⟨⟨hp, ht.1.symm⟩, ht.2.1.symm⟩
    tauto

end slashes

/-- Quoted text is one argument and unchanged, with every `IFS`, every set of files and every
`fflag`, unless backquotes stand around it and it has a backslash before a backquote. -/
theorem quoting_inert {α : Type} (cmds : Commands α) (subst : Substitutions α) (files : Files)
    (parsebackquote : Bool) (ifs : List Byte) (nparam : Nat) (fflag : Bool) (flag : Flags)
    (q : Quote) (s rest : List Byte) (hfull : flag.full = true) (hs : ∀ c ∈ s, q.Allowed c)
    (hrest : Delimited rest) :
    Inert cmds subst files parsebackquote ifs nparam fflag flag q s rest ↔
      ¬ (parsebackquote = true ∧ [backslash, backquote] <:+: s) := by
  have hsub := unslashed_sublist parsebackquote s
  have hzero : (0 : Byte) ∉ unslashed parsebackquote s := by
    intro h
    have := hs 0 (hsub.mem h)
    cases q <;> exact this.1 rfl
  have hexpand : ∀ n, 2 * s.length < n → expandarg subst files ifs nparam fflag n
      (q.esc (unslashed parsebackquote s)) [] flag = some [unslashed parsebackquote s] :=
    fun n hn => expandarg_esc hfull hzero (by have := hsub.length_le; omega)
  rw [← unslashed_eq_self]
  constructor
  · rintro ⟨text, quoteflag, backquotelist, hread, hexp⟩
    have h := hread _ (Nat.le_refl _)
    rw [readtoken1_quoted hs hrest (Nat.le_refl _)] at h
    cases h
    have h := hexp _ (Nat.lt_succ_self _)
    rw [hexpand _ (Nat.lt_succ_self _)] at h
    simpa using h
  · intro h
    refine ⟨_, _, _, fun n hn => readtoken1_quoted hs hrest hn, fun n hn => ?_⟩
    rw [hexpand n hn, h]

def noCommands : Commands Unit := ⟨fun _ => .ok (), fun l => .ok ((), l)⟩

def noSubstitutions : Substitutions Unit :=
  ⟨fun p _ e => some (p, e), fun _ _ _ e => some e, fun _ e => some e, fun _ => none⟩

def noFiles : Files := ⟨fun _ => false, fun _ => none⟩

/-- `EXP_FULL | EXP_TILDE`, as for the words of a command. -/
def wordFlags : Flags := ⟨true, true, false, false, false⟩

/-- The string `~*` with a `CTLESC` in the middle, in double quotes and in backquotes. -/
theorem quoting_inert_double : Inert noCommands noSubstitutions noFiles true [32] 0 false wordFlags
    .double [tilde, ctlesc, 42] [newline] :=
  (quoting_inert noCommands noSubstitutions noFiles true [32] 0 false wordFlags .double
    [tilde, ctlesc, 42] [newline] rfl (List.forall_mem_cons.2 ⟨by decide, List.forall_mem_cons.2
      ⟨by decide, List.forall_mem_singleton.2 (by decide)⟩⟩) (by decide)).2 (by decide)

/-- A backslash and a backquote in single quotes, in a command that stands in backquotes. -/
theorem quoting_loses : ¬ ∀ (parsebackquote : Bool) (ifs : List Byte) (nparam : Nat) (fflag : Bool)
    (flag : Flags) (q : Quote) (s rest : List Byte), flag.full = true → (∀ c ∈ s, q.Allowed c) →
    Delimited rest →
    Inert noCommands noSubstitutions noFiles parsebackquote ifs nparam fflag flag q s rest := by
  intro h
  obtain ⟨text, quoteflag, backquotelist, hread, hexp⟩ :=
    h true [32] 0 false wordFlags .single [backslash, backquote] [] rfl
      (List.forall_mem_cons.2 ⟨by decide, List.forall_mem_singleton.2 (by decide)⟩) (by decide)
  have h₁ := hread 5 (by decide)
  have h₂ := hexp 5 (by decide)
  cases h₁
  exact absurd h₂ (by decide)

end Bsdi.Sh
