import Bsdi.Sh.Patterns

/-!
# Patterns as the shell reads them

The tokenizer puts `CTLESC` before a quoted character only where it has a meaning of its own to a
later stage. `]` and `-` are not among these, so that in a bracket expression their quotes are lost.
-/

namespace Bsdi.Sh

/-- What stands between double quotes: a character, or one behind a backslash. -/
inductive Inner
  | char (c : Byte)
  | slashed (c : Byte)
  deriving DecidableEq, Repr

namespace Inner

def source : Inner → List Byte
  | char c => [c]
  | slashed c => [backslash, c]

def letters : Inner → List Letter
  | char c => [⟨c, true⟩]
  | slashed c =>
    if c ∈ [backslash, backquote, dollar, dquote] then [⟨c, true⟩]
    else [⟨backslash, true⟩, ⟨c, true⟩]

def Allowed : Inner → Prop
  | char c => Quote.double.Allowed c
  | slashed c => c ≠ 0 ∧ c ≠ newline

instance : (i : Inner) → Decidable i.Allowed
  | char c => inferInstanceAs (Decidable (Quote.double.Allowed c))
  | slashed _ => instDecidableAnd

end Inner

/-- The parts of a pattern: characters, quoted or not, and quoted strings. -/
inductive Part
  | plain (c : Byte)
  | slashed (c : Byte)
  | single (s : List Byte)
  | double (s : List Inner)
  deriving DecidableEq, Repr

namespace Part

def source : Part → List Byte
  | plain c => [c]
  | slashed c => [backslash, c]
  | single s => squote :: s ++ [squote]
  | double s => dquote :: s.flatMap Inner.source ++ [dquote]

def letters : Part → List Letter
  | plain c => [⟨c, false⟩]
  | slashed c => [⟨c, true⟩]
  | single s => s.map fun c => ⟨c, true⟩
  | double s => s.flatMap Inner.letters

/-- A character that is not quoted may have a meaning in a pattern, but none to the tokenizer. -/
def Allowed : Part → Prop
  | plain c => c ≠ 0 ∧ Table.base.entry c ∈ [Class.cword, .cctl, .cendvar]
  | slashed c => c ≠ 0 ∧ c ≠ newline
  | single s => ∀ c ∈ s, Quote.single.Allowed c
  | double s => ∀ i ∈ s, i.Allowed

instance : (p : Part) → Decidable p.Allowed
  | plain _ => instDecidableAnd
  | slashed _ => instDecidableAnd
  | single s => List.decidableBAll (fun c => Quote.single.Allowed c) s
  | double s => List.decidableBAll Inner.Allowed s

end Part

def source (ps : List Part) : List Byte := ps.flatMap Part.source

def letters (ps : List Part) : List Letter := ps.flatMap Part.letters

/-- What the tokenizer leaves of a letter: it is quoted where there is a `CTLESC`. -/
def Letter.seen (l : Letter) : Letter :=
  ⟨l.byte, if l.quoted then Table.sq.entry l.byte = .cctl else Table.base.entry l.byte = .cctl⟩

section reading

variable {α : Type} {cmds : Commands α} {n : Nat} {c : Byte} {r : Reader α} {rest : List Byte}

structure Ready (r : Reader α) : Prop where
  table : r.table = .base
  dblquote : r.dblquote = false
  varnest : r.varnest = 0
  arinest : r.arinest = 0

/-- A step of the reader: the text `l` has been read, with `out` put into the word. -/
def Reads (cmds : Commands α) (r : Reader α) (l out rest : List Byte) : Prop :=
  ∀ n, ∃ m r', n ≤ m ∧ Ready r' ∧ r'.out = r.out ++ out ∧ r'.bqlist = r.bqlist ∧
    readloop cmds false none false (n + l.length) (l ++ rest).head? (r.before (l ++ rest)) =
      readloop cmds false none false m rest.head? (r'.before rest)

theorem reads_plain (hr : Ready r) (hc : (Part.plain c).Allowed) :
    Reads cmds r [c] (codes [Letter.seen ⟨c, false⟩]) rest := by
  intro n
  refine ⟨n, r.put (codes [Letter.seen ⟨c, false⟩]), Nat.le_refl _,
    ⟨hr.table, hr.dblquote, hr.varnest, hr.arinest⟩, rfl, rfl, ?_⟩
  have hne : c ≠ backslash := by
    rintro rfl
    exact absurd hc.2 (by decide)
  obtain ⟨-, hentry⟩ := hc
  simp only [List.mem_cons, List.not_mem_nil, or_false] at hentry
  rcases hentry with he | he | he <;>
    simp [readloop, unslash, switch, Reader.before, hr.table, hr.varnest, hne, he, Reader.pgetc,
      Reader.put, codes, Letter.code, Letter.seen]

theorem reads_slashed (hr : Ready r) (hc : (Part.slashed c).Allowed) :
    Reads cmds r [backslash, c] (codes [Letter.seen ⟨c, true⟩]) rest := by
  intro n
  refine ⟨n + 1, { r.put (codes [Letter.seen ⟨c, true⟩]) with quotef := r.quotef + 1 }, by omega,
    ⟨hr.table, hr.dblquote, hr.varnest, hr.arinest⟩, rfl, rfl, ?_⟩
  have he : Table.base.entry backslash = .cback := by decide
  by_cases hctl : Table.sq.entry c = .cctl <;>
    simp [readloop, unslash, switch, Reader.before, hr.table, hr.dblquote, he, Reader.pgetc,
      Reader.put, Reader.backslashed, hc.2, hctl, codes, Letter.code, Letter.seen]

theorem escByte_seen {q : Quote} (hc : q.Allowed c) :
    q.escByte c = codes [Letter.seen ⟨c, true⟩] := by
  have hentry : q.table.entry c = .cctl ↔ Table.sq.entry c = .cctl := by
    cases q with
    | single => exact Iff.rfl
    | double =>
      obtain ⟨-, h1, h2, h3, h4⟩ := hc
      simp only [Quote.table, Table.entry, add, List.mem_singleton, h1, h2, h3, h4, if_false]
      by_cases hspecial : c ∈ quotedSpecial
      · simp [hspecial]
      by_cases hbrace : c = 125
      · subst hbrace
        decide
      by_cases hquote : c = squote
      · subst hquote
        decide
      simp [hspecial, hbrace, hquote]
  rw [Quote.escByte]
  by_cases h : Table.sq.entry c = .cctl
  · simp [if_pos (hentry.mpr h), h, codes, Letter.code, Letter.seen]
  · simp [if_neg fun h' => h (hentry.mp h'), h, codes, Letter.code, Letter.seen]

theorem codes_append (ls ls' : List Letter) : codes (ls ++ ls') = codes ls ++ codes ls' :=
  List.flatMap_append

theorem esc_seen {q : Quote} {s : List Byte} (hs : ∀ c ∈ s, q.Allowed c) :
    q.esc s = codes ((s.map fun c => ⟨c, true⟩).map Letter.seen) := by
  induction s with
  | nil => rfl
  | cons c s ih =>
    obtain ⟨hc, hs⟩ := List.forall_mem_cons.mp hs
    rw [Quote.esc_cons, ih hs, escByte_seen hc, ← codes_append]
    rfl

theorem reads_single {s : List Byte} (hr : Ready r) (hs : (Part.single s).Allowed) :
    Reads cmds r (Part.single s).source (codes ((Part.single s).letters.map Letter.seen)) rest := by
  intro n
  have hopen : ∀ k, readloop cmds false none false (k + 1) (some squote)
      (r.before (squote :: (s ++ squote :: rest))) =
        readloop cmds false none false k (s ++ squote :: rest).head?
          ({ r with table := .sq }.before (s ++ squote :: rest)) := fun k => by
    have he : Table.base.entry squote = .csquote := by decide
    simp [readloop, unslash, switch, Reader.before, hr.table, he, Reader.pgetc]
  obtain ⟨m, hm, hrun⟩ := readloop_string (q := .single) cmds false (n + 1) rest
    (r := { r with table := .sq }) hs rfl hr.varnest
  obtain ⟨j, rfl⟩ := Nat.exists_eq_add_of_le' (Nat.le_trans (Nat.succ_pos n) hm)
  have hunslashed : unslashed false s = s := unslashed_eq_self.mpr fun h => by simp at h
  have hmark : Quote.single.mark = squote := rfl
  rw [hunslashed, esc_seen hs, hmark] at hrun
  refine ⟨j, { r.put (codes ((Part.single s).letters.map Letter.seen)) with
      quotef := r.quotef + 1 }, by omega, ⟨hr.table, hr.dblquote, hr.varnest, hr.arinest⟩, rfl, rfl,
    ?_⟩
  have hlen : n + (Part.single s).source.length = n + 1 + s.length + 1 := by
    simp [Part.source]
    omega
  have htext : (Part.single s).source ++ rest = squote :: (s ++ squote :: rest) := by
    simp [Part.source]
  rw [hlen, htext, List.head?_cons, hopen, hrun]
  have he : Table.sq.entry squote = .cendquote := by decide
  simp [readloop, unslash, switch, Reader.before, he, Reader.pgetc, Reader.put, Reader.endquote,
    hr.arinest, hr.dblquote, hr.table, Part.letters]

theorem readloop_slashed (hc : (Inner.slashed c).Allowed) (hr : r.table = .dq)
    (hd : r.dblquote = true) :
    readloop cmds false none false (n + 1) (some backslash) (r.before (backslash :: c :: rest)) =
      readloop cmds false none false n rest.head?
        ({ r.put (codes ((Inner.slashed c).letters.map Letter.seen)) with
          quotef := r.quotef + 1 }.before rest) := by
  have he : Table.dq.entry backslash = .cback := by decide
  have hslash : Table.sq.entry backslash = .cword := by decide
  by_cases hplain : c ∈ [backslash, backquote, dollar, dquote]
  · have hword : Table.sq.entry c = .cword := by
      simp only [List.mem_cons, List.not_mem_nil, or_false] at hplain
      rcases hplain with rfl | rfl | rfl | rfl <;> decide
    have hdropped : ¬ (((¬ c = backslash ∧ ¬ c = backquote) ∧ ¬ c = dollar) ∧ ¬ c = dquote) := by
      rintro ⟨⟨⟨h1, h2⟩, h3⟩, h4⟩
      simp [h1, h2, h3, h4] at hplain
    simp [readloop, unslash, switch, Reader.before, hr, hd, he, Reader.pgetc, Reader.put,
      Reader.backslashed, hc.2, hword, codes, Letter.code, Letter.seen, Inner.letters, hplain,
      hdropped]
  · have hne : c ≠ backslash ∧ c ≠ backquote ∧ c ≠ dollar ∧ c ≠ dquote := by
      simpa using hplain
    by_cases hctl : Table.sq.entry c = .cctl <;>
      simp [readloop, unslash, switch, Reader.before, hr, hd, he, Reader.pgetc, Reader.put,
        Reader.backslashed, hc.2, hctl, hslash, codes, Letter.code, Letter.seen, Inner.letters, hne]

theorem readloop_inner (cmds : Commands α) (rest : List Byte) {s : List Inner}
    (hs : ∀ i ∈ s, i.Allowed) (hr : r.table = .dq) (hd : r.dblquote = true)
    (hv : r.varnest = 0) (n : Nat) :
    ∃ m quotef, n ≤ m ∧
      readloop cmds false none false (n + (s.flatMap Inner.source).length)
        (s.flatMap Inner.source ++ dquote :: rest).head?
        (r.before (s.flatMap Inner.source ++ dquote :: rest)) =
      readloop cmds false none false m (some dquote)
        ({ r.put (codes ((s.flatMap Inner.letters).map Letter.seen)) with
          quotef := quotef }.before (dquote :: rest)) := by
  induction s generalizing r n with
  | nil => exact ⟨n, r.quotef, Nat.le_refl n, by simp [Reader.put, Reader.before, codes]⟩
  | cons i s ih =>
    obtain ⟨hi, hs'⟩ := List.forall_mem_cons.mp hs
    cases i with
    | char c =>
      have hc : Quote.double.Allowed c := hi
      obtain ⟨m, quotef, hm, hrun⟩ := ih hs' (r := r.put (Quote.double.escByte c)) hr hd hv n
      refine ⟨m, quotef, hm, ?_⟩
      rw [escByte_seen hc] at hrun
      have hstep : readloop cmds false none false (n + (s.flatMap Inner.source).length + 1) (some c)
          (r.before (c :: (s.flatMap Inner.source ++ dquote :: rest))) =
            readloop cmds false none false (n + (s.flatMap Inner.source).length)
              (s.flatMap Inner.source ++ dquote :: rest).head?
              ((r.put (Quote.double.escByte c)).before
                (s.flatMap Inner.source ++ dquote :: rest)) :=
        readloop_quoted hc hr hv fun h => Bool.false_ne_true h.1
      rw [escByte_seen hc] at hstep
      have hlen : n + ((Inner.char c :: s).flatMap Inner.source).length =
          n + (s.flatMap Inner.source).length + 1 := by
        simp [Inner.source]
        omega
      rw [hlen]
      refine hstep.trans (hrun.trans ?_)
      simp [Reader.put, Inner.letters, codes, List.append_assoc]
    | slashed c =>
      obtain ⟨m, quotef, hm, hrun⟩ := ih hs' (r := { r.put (codes ((Inner.slashed
        c).letters.map Letter.seen)) with quotef := r.quotef + 1 }) hr hd hv (n + 1)
      refine ⟨m, quotef, by omega, ?_⟩
      have hlen : n + ((Inner.slashed c :: s).flatMap Inner.source).length =
          n + 1 + (s.flatMap Inner.source).length + 1 := by
        simp [Inner.source]
        omega
      have htext : (Inner.slashed c :: s).flatMap Inner.source ++ dquote :: rest =
          backslash :: c :: (s.flatMap Inner.source ++ dquote :: rest) := by
        simp [Inner.source]
      rw [hlen, htext, List.head?_cons, readloop_slashed hi hr hd, hrun]
      simp [Reader.put, codes, List.append_assoc]

theorem reads_double {s : List Inner} (hr : Ready r) (hs : (Part.double s).Allowed) :
    Reads cmds r (Part.double s).source (codes ((Part.double s).letters.map Letter.seen)) rest := by
  intro n
  obtain ⟨text, htext⟩ : ∃ text, text = s.flatMap Inner.source := ⟨_, rfl⟩
  have hopen : ∀ k, readloop cmds false none false (k + 1) (some dquote)
      (r.before (dquote :: (text ++ dquote :: rest))) =
        readloop cmds false none false k (text ++ dquote :: rest).head?
          ({ r with table := .dq, dblquote := true }.before (text ++ dquote :: rest)) := fun k => by
    have he : Table.base.entry dquote = .cdquote := by decide
    simp [readloop, unslash, switch, Reader.before, hr.table, he, Reader.pgetc]
  obtain ⟨m, quotef, hm, hrun⟩ := readloop_inner cmds rest
    (r := { r with table := .dq, dblquote := true }) hs rfl rfl hr.varnest (n + 1)
  obtain ⟨j, rfl⟩ := Nat.exists_eq_add_of_le' (Nat.le_trans (Nat.succ_pos n) hm)
  rw [← htext] at hrun
  refine ⟨j, { r.put (codes ((Part.double s).letters.map Letter.seen)) with
      quotef := quotef + 1 }, by omega, ⟨hr.table, hr.dblquote, hr.varnest, hr.arinest⟩, rfl, rfl,
    ?_⟩
  have hlen : n + (Part.double s).source.length = n + 1 + text.length + 1 := by
    rw [Part.source, ← htext]
    simp
    omega
  have hsource : (Part.double s).source ++ rest = dquote :: (text ++ dquote :: rest) := by
    rw [Part.source, ← htext]
    simp
  rw [hlen, hsource, List.head?_cons, hopen, hrun]
  have he : Table.dq.entry dquote = .cendquote := by decide
  simp [readloop, unslash, switch, Reader.before, he, Reader.pgetc, Reader.put, Reader.endquote,
    hr.arinest, hr.dblquote, hr.table, Part.letters]

theorem reads_part {p : Part} (hr : Ready r) (hp : p.Allowed) :
    Reads cmds r p.source (codes (p.letters.map Letter.seen)) rest := by
  cases p with
  | plain c => exact reads_plain hr hp
  | slashed c => exact reads_slashed hr hp
  | single s => exact reads_single hr hp
  | double s => exact reads_double hr hp

theorem reads_parts {ps : List Part} (hr : Ready r) (hps : ∀ p ∈ ps, p.Allowed) :
    Reads cmds r (source ps) (codes ((letters ps).map Letter.seen)) rest := by
  induction ps generalizing r with
  | nil => exact fun n => ⟨n, r, Nat.le_refl _, hr, (List.append_nil _).symm, rfl, rfl⟩
  | cons p ps ih =>
    intro n
    obtain ⟨hp, hps⟩ := List.forall_mem_cons.mp hps
    -- the steps of `p` come after enough turns for the others
    have hpart : Reads cmds r p.source (codes (p.letters.map Letter.seen)) (source ps ++ rest) :=
      reads_part hr hp
    obtain ⟨m₁, r₁, hm₁, hr₁, hout₁, hbq₁, hrun₁⟩ := hpart (n + (source ps).length)
    obtain ⟨k, rfl⟩ := Nat.exists_eq_add_of_le hm₁
    obtain ⟨m₂, r₂, hm₂, hr₂, hout₂, hbq₂, hrun₂⟩ := ih hr₁ hps (n + k)
    refine ⟨m₂, r₂, by omega, hr₂, ?_, hbq₂.trans hbq₁, ?_⟩
    · rw [hout₂, hout₁, List.append_assoc, ← codes_append, ← List.map_append]
      rfl
    · have hlen : n + (source (p :: ps)).length = n + (source ps).length + p.source.length := by
        rw [source, List.flatMap_cons, List.length_append, source]
        omega
      have htext : source (p :: ps) ++ rest = p.source ++ (source ps ++ rest) := by
        rw [source, List.flatMap_cons, List.append_assoc, source]
      have hcomm : n + (source ps).length + k = n + k + (source ps).length := by omega
      rw [hlen, htext, hrun₁, hcomm, hrun₂]

theorem readloop_delimited (hr : Ready r) (hrest : Delimited rest)
    (hredir : rest.head? ≠ some 60 ∧ rest.head? ≠ some 62) :
    readloop cmds false none false (n + 1) rest.head? (r.before rest) =
      .ok (.tword r.out r.quotef r.bqlist, rest) := by
  cases rest with
  | nil => simp [readloop, unslash, switch, endword, Reader.before, hr.table, hr.varnest]
  | cons d rest =>
    have hd : Table.base.entry d = .cnl ∨ Table.base.entry d = .cspcl ∨
        Table.base.entry d = .ceof := by
      simpa [Delimited, Table.cls] using hrest
    have h1 : d ≠ 60 := fun h => hredir.1 (congrArg some h)
    have h2 : d ≠ 62 := fun h => hredir.2 (congrArg some h)
    rcases hd with he | he | he <;>
      simp [readloop, unslash, switch, endword, Reader.before, hr.table, hr.varnest, he, h1, h2]

theorem readtoken1_source {ps : List Part} (hps : ∀ p ∈ ps, p.Allowed) (hrest : Delimited rest)
    (hredir : rest.head? ≠ some 60 ∧ rest.head? ≠ some 62) (hn : (source ps).length < n) :
    ∃ quotef, readtoken1 cmds false n (source ps ++ rest).head? .base none false
        (source ps ++ rest).tail =
      .ok (.tword (codes ((letters ps).map Letter.seen)) quotef [], rest) := by
  obtain ⟨k, rfl⟩ : ∃ k, n = k + 1 + (source ps).length := ⟨n - 1 - (source ps).length, by omega⟩
  let r₀ : Reader α := ⟨.base, 0, false, 0, 0, 0, .base, [], [], []⟩
  have hr₀ : Ready r₀ := ⟨rfl, rfl, rfl, rfl⟩
  have hreads : Reads cmds r₀ (source ps) (codes ((letters ps).map Letter.seen)) rest :=
    reads_parts hr₀ hps
  obtain ⟨m, r, hm, hr, hout, hbq, hrun⟩ := hreads (k + 1)
  obtain ⟨j, rfl⟩ := Nat.exists_eq_add_of_le' (Nat.le_trans (Nat.succ_pos k) hm)
  refine ⟨r.quotef, hrun.trans ((readloop_delimited hr hrest hredir).trans ?_)⟩
  rw [hout, hbq]
  rfl

end reading

variable {ls : List Letter}

/-- Where the quotes of `]` and `-` are lost no bracket expression changes: it is closed at the
same place and takes the same characters. -/
inductive KeepsQuotes : List Letter → Prop
  | nil : KeepsQuotes []
  | other {l : Letter} {ls : List Letter} (h : ¬ l.Is bracket) (kept : KeepsQuotes ls) :
    KeepsQuotes (l :: ls)
  | unclosed {l : Letter} {ls : List Letter} (is : l.Is bracket) (h : bracketed ls = none)
    (seen : bracketed (ls.map Letter.seen) = none) (kept : KeepsQuotes ls) : KeepsQuotes (l :: ls)
  | set {l : Letter} {ls rest : List Letter} {negate : Bool} {ranges ranges' : List (Byte × Byte)}
    (is : l.Is bracket) (h : bracketed ls = some (negate, ranges, rest))
    (seen : bracketed (ls.map Letter.seen) = some (negate, ranges', rest.map Letter.seen))
    (same : ∀ c, Takes negate ranges' c ↔ Takes negate ranges c) (kept : KeepsQuotes rest) :
    KeepsQuotes (l :: ls)

theorem seen_is {l : Letter} {c : Byte} (hc : c = question ∨ c = asterisk ∨ c = bracket) :
    l.seen.Is c ↔ l.Is c := by
  rw [Letter.Is, Letter.Is, Letter.seen]
  dsimp only
  rw [and_congr_left_iff]
  rintro rfl
  rcases hc with hc | hc | hc <;> rw [hc] <;> cases l.quoted <;> decide

theorem matches_cons_seen {l : Letter} (hl : ¬ l.Is bracket) {s : List Byte}
    (ih : ∀ s, Matches (ls.map Letter.seen) s ↔ Matches ls s) :
    Matches ((l :: ls).map Letter.seen) s ↔ Matches (l :: ls) s := by
  have hq := seen_is (l := l) (c := question) (by decide)
  have ha := seen_is (l := l) (c := asterisk) (by decide)
  have hb := seen_is (l := l) (c := bracket) (by decide)
  rw [List.map_cons]
  by_cases hquestion : l.Is question
  · rw [matches_any hquestion, matches_any (hq.mpr hquestion)]
    simp only [ih]
  by_cases hasterisk : l.Is asterisk
  · rw [matches_star hasterisk, matches_star (ha.mpr hasterisk)]
    simp only [ih]
  · rw [matches_literal ⟨hquestion, hasterisk, fun h => absurd h hl⟩,
      matches_literal ⟨mt hq.mp hquestion, mt ha.mp hasterisk, fun h => absurd (hb.mp h) hl⟩]
    simp only [ih]
    rfl

theorem matches_seen (h : KeepsQuotes ls) (s : List Byte) : Matches (ls.map Letter.seen) s ↔
    Matches ls s := by
  induction h generalizing s with
  | nil => exact Iff.rfl
  | other h _ ih => exact matches_cons_seen h ih
  | @unclosed l ls is h seen _ ih =>
    have hb := seen_is (l := l) (c := bracket) (by decide)
    have hne : ∀ {l : Letter}, l.Is bracket → ¬ l.Is question ∧ ¬ l.Is asterisk := fun h =>
      ⟨fun h' => absurd (h.2.symm.trans h'.2) (by decide),
        fun h' => absurd (h.2.symm.trans h'.2) (by decide)⟩
    rw [List.map_cons, matches_literal ⟨(hne is).1, (hne is).2, fun _ => h⟩,
      matches_literal ⟨(hne (hb.mpr is)).1, (hne (hb.mpr is)).2, fun _ => seen⟩]
    simp only [ih]
    rfl
  | @set l ls rest negate ranges ranges' is h seen same _ ih =>
    have hb := seen_is (l := l) (c := bracket) (by decide)
    rw [List.map_cons, matches_set is h, matches_set (hb.mpr is) seen]
    simp only [ih, same]

theorem seen_is_of_unquoted {l : Letter} {c : Byte} (hc : c ∈ [closing, dash, bang])
    (h : l.quoted = true → l.byte ≠ closing ∧ l.byte ≠ dash) : l.seen.Is c ↔ l.Is c := by
  rw [Letter.Is, Letter.Is, Letter.seen]
  dsimp only
  rw [and_congr_left_iff]
  rintro rfl
  simp only [List.mem_cons, List.not_mem_nil, or_false] at hc
  cases hq : l.quoted with
  | false => rcases hc with hc | hc | hc <;> rw [hc] <;> decide
  | true =>
    rcases hc with hc | hc | hc
    · exact absurd hc (h hq).1
    · exact absurd hc (h hq).2
    · rw [hc]
      decide

theorem listed_seen (first : Bool)
    (h : ∀ l ∈ ls, l.quoted = true → l.byte ≠ closing ∧ l.byte ≠ dash) :
    listed first (ls.map Letter.seen) =
      (listed first ls).map fun x => (x.1, x.2.map Letter.seen) := by
  induction first, ls using listed.induct with
  | case1 => rfl
  | case2 first l ls hclosing =>
    have hl := seen_is_of_unquoted (c := closing) (by decide) (h l List.mem_cons_self)
    rw [List.map_cons, listed.eq_def, listed.eq_def first]
    dsimp only
    rw [if_pos hclosing, if_pos ⟨hclosing.1, hl.mpr hclosing.2⟩]
    rfl
  | case3 first l hopen =>
    have hl := seen_is_of_unquoted (c := closing) (by decide) (h l List.mem_cons_self)
    rw [List.map_cons, List.map_nil, listed.eq_def, listed.eq_def first]
    dsimp only
    rw [if_neg hopen, if_neg fun h' => hopen ⟨h'.1, hl.mp h'.2⟩]
    rfl
  | case4 first l hopen d ih =>
    obtain ⟨hl, h⟩ := List.forall_mem_cons.mp h
    have hl := seen_is_of_unquoted (c := closing) (by decide) hl
    rw [List.map_cons, List.map_cons, List.map_nil, listed.eq_def, listed.eq_def first]
    dsimp only
    rw [if_neg hopen, if_neg fun h' => hopen ⟨h'.1, hl.mp h'.2⟩]
    refine (congrArg _ (ih h)).trans ?_
    rw [Option.map_map, Option.map_map]
    rfl
  | case5 first l hopen d e ls hrange ih =>
    obtain ⟨hl, h⟩ := List.forall_mem_cons.mp h
    obtain ⟨hd, h⟩ := List.forall_mem_cons.mp h
    obtain ⟨he, h⟩ := List.forall_mem_cons.mp h
    have hl := seen_is_of_unquoted (c := closing) (by decide) hl
    have hd := seen_is_of_unquoted (c := dash) (by decide) hd
    have he := seen_is_of_unquoted (c := closing) (by decide) he
    rw [List.map_cons, List.map_cons, List.map_cons, listed.eq_def, listed.eq_def first]
    dsimp only
    rw [if_neg hopen, if_neg fun h' => hopen ⟨h'.1, hl.mp h'.2⟩, if_pos hrange,
      if_pos ⟨hd.mpr hrange.1, mt he.mp hrange.2⟩]
    refine (congrArg _ (ih h)).trans ?_
    rw [Option.map_map, Option.map_map]
    rfl
  | case6 first l hopen d e ls hrange ih =>
    obtain ⟨hl, h⟩ := List.forall_mem_cons.mp h
    have hl := seen_is_of_unquoted (c := closing) (by decide) hl
    have hd := seen_is_of_unquoted (c := dash) (by decide) (h d List.mem_cons_self)
    have he := seen_is_of_unquoted (c := closing) (by decide)
      (h e (List.mem_cons_of_mem _ List.mem_cons_self))
    rw [List.map_cons, List.map_cons, List.map_cons, listed.eq_def, listed.eq_def first]
    dsimp only
    rw [if_neg hopen, if_neg fun h' => hopen ⟨h'.1, hl.mp h'.2⟩, if_neg hrange,
      if_neg fun h' => hrange ⟨hd.mp h'.1, mt he.mpr h'.2⟩]
    refine (congrArg _ (ih h)).trans ?_
    rw [Option.map_map, Option.map_map]
    rfl

theorem bracketed_seen (h : ∀ l ∈ ls, l.quoted = true → l.byte ≠ closing ∧ l.byte ≠ dash) :
    bracketed (ls.map Letter.seen) =
      (bracketed ls).map fun x => (x.1, x.2.1, x.2.2.map Letter.seen) := by
  match ls with
  | [] => rfl
  | l :: ls =>
    have hfirst := listed_seen true h
    obtain ⟨hl, h⟩ := List.forall_mem_cons.mp h
    have hrest := listed_seen true h
    rw [List.map_cons] at hfirst
    have hbang := seen_is_of_unquoted (c := bang) (by decide) hl
    rw [List.map_cons, bracketed, bracketed, hfirst, hrest]
    by_cases hl : l.Is bang
    · rw [if_pos hl, if_pos (hbang.mpr hl), Option.map_map, Option.map_map]
      rfl
    · rw [if_neg hl, if_neg (mt hbang.mp hl), Option.map_map, Option.map_map]
      rfl

theorem kept_of_unquoted (h : ∀ l ∈ ls, l.quoted = true → l.byte ≠ closing ∧ l.byte ≠ dash) :
    KeepsQuotes ls := by
  induction hn : ls.length using Nat.strongRecOn generalizing ls with
  | _ n ih =>
    subst hn
    match ls with
    | [] => exact .nil
    | l :: ls =>
      obtain ⟨-, h⟩ := List.forall_mem_cons.mp h
      have hseen := bracketed_seen h
      have hkept := ih ls.length (Nat.lt_succ_self _) h rfl
      by_cases hl : l.Is bracket
      · cases hfound : bracketed ls with
        | none =>
          rw [hfound] at hseen
          exact .unclosed hl hfound hseen hkept
        | some x =>
          obtain ⟨negate, ranges, rest⟩ := x
          rw [hfound] at hseen
          have hsuffix := bracketed_suffix hfound
          refine .set hl hfound hseen (fun _ => Iff.rfl) (ih rest.length ?_ ?_ rfl)
          · exact Nat.lt_succ_of_le hsuffix.length_le
          · exact fun l hmem => h l (hsuffix.subset hmem)
      · exact .other hl hkept

theorem coded_seen (h : ∀ l ∈ ls, l.byte ≠ 0) : Coded (ls.map Letter.seen) := by
  intro l hl
  obtain ⟨l, hmem, rfl⟩ := List.mem_map.mp hl
  refine ⟨h l hmem, fun hplain hbyte => ?_⟩
  rw [Letter.seen] at hplain hbyte
  dsimp only at hplain hbyte
  rw [hbyte] at hplain
  cases hq : l.quoted <;> rw [hq] at hplain <;> exact absurd hplain (by decide)

theorem letters_ne_zero {ps : List Part} (hps : ∀ p ∈ ps, p.Allowed) :
    ∀ l ∈ letters ps, l.byte ≠ 0 := by
  intro l hl
  obtain ⟨p, hp, hl⟩ := List.mem_flatMap.mp hl
  have hp := hps p hp
  cases p with
  | plain c =>
    obtain rfl := List.mem_singleton.mp hl
    exact hp.1
  | slashed c =>
    obtain rfl := List.mem_singleton.mp hl
    exact hp.1
  | single s =>
    obtain ⟨c, hc, rfl⟩ := List.mem_map.mp hl
    exact (hp c hc).1
  | double s =>
    obtain ⟨i, hi, hl⟩ := List.mem_flatMap.mp hl
    have hi := hp i hi
    cases i with
    | char c =>
      obtain rfl := List.mem_singleton.mp hl
      exact hi.1
    | slashed c =>
      rw [Inner.letters] at hl
      split_ifs at hl
      · obtain rfl := List.mem_singleton.mp hl
        exact hi.1
      · rcases List.mem_cons.mp hl with rfl | hl
        · decide
        · obtain rfl := List.mem_singleton.mp hl
          exact hi.1

/-- A pattern is read as one word, whose text matches the strings of the pattern in which the
quotes of `]` and `-` are lost; these are the strings of the pattern when that changes no bracket
expression. -/
theorem patmatch_iff {α : Type} (cmds : Commands α) (ps : List Part) (hps : ∀ p ∈ ps, p.Allowed)
    (rest : List Byte) (hrest : Delimited rest)
    (hredir : rest.head? ≠ some 60 ∧ rest.head? ≠ some 62) :
    ∃ text, (∀ n, (source ps).length < n → ∃ quotef, readtoken1 cmds false n
        (source ps ++ rest).head? .base none false (source ps ++ rest).tail =
          .ok (.tword text quotef [], rest)) ∧
      ∀ s, (0 : Byte) ∉ s → ∀ n, text.length < n →
        (pmatch n text s = true ↔ Matches ((letters ps).map Letter.seen) s) ∧
        (KeepsQuotes (letters ps) → (pmatch n text s = true ↔ Matches (letters ps) s)) := by
  refine ⟨codes ((letters ps).map Letter.seen), fun n hn =>
    readtoken1_source hps hrest hredir hn, fun s hs n hn => ?_⟩
  have hmatch := pmatch_iff n hn hs (coded_seen (letters_ne_zero hps))
  exact ⟨hmatch, fun hkept => hmatch.trans (matches_seen hkept s)⟩

theorem patmatch_star : ∃ text, ∀ s, (0 : Byte) ∉ s → ∀ n, text.length < n →
    (pmatch n text s = true ↔
      Matches [⟨91, false⟩, ⟨97, false⟩, ⟨42, true⟩, ⟨93, false⟩, ⟨42, false⟩] s) := by
  obtain ⟨text, -, h⟩ := patmatch_iff noCommands
    [.plain 91, .plain 97, .double [.char 42], .plain 93, .plain 42] (by decide) [] (by decide)
    (by decide)
  exact ⟨text, fun s hs n hn => (h s hs n hn).2 (kept_of_unquoted (by decide))⟩

/-- The pattern `[a"-"c]` matches `b`. -/
theorem patmatch_dash : ¬ ∀ (ps : List Part) (text s : List Byte) (n quotef : Nat),
    (∀ p ∈ ps, p.Allowed) → (0 : Byte) ∉ s → text.length < n →
      readtoken1 noCommands false ((source ps).length + 1) (source ps).head? .base none false
        (source ps).tail = .ok (.tword text quotef [], []) →
      (pmatch n text s = true ↔ Matches (letters ps) s) := by
  intro h
  have hmatch := (h [.plain 91, .plain 97, .double [.char 45], .plain 99, .plain 93]
    [91, 97, 45, 99, 93] [98] 6 1 (by decide) (by decide) (by decide) rfl).mp (by decide)
  have hfound : bracketed [⟨97, false⟩, ⟨45, true⟩, ⟨99, false⟩, ⟨93, false⟩] =
      some (false, [(97, 97), (45, 45), (99, 99)], []) := rfl
  obtain ⟨c, s', heq, htakes, -⟩ := (matches_set ⟨rfl, rfl⟩ hfound).mp hmatch
  obtain ⟨rfl, -⟩ := List.cons.inj heq
  exact absurd (htakes.mpr rfl) (by decide)

end Bsdi.Sh
