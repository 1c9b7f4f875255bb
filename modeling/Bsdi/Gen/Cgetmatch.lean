import Mathlib.Data.List.SplitOn
import Mathlib.Logic.Relation

/-!
# Names of capability records

`cgetmatch` of `getcap.c`. A pointer into the record is an index into its bytes, the NUL at the end
included; a read elsewhere has no result.
-/

namespace Bsdi.Getcap

abbrev Byte := UInt8

def bar : Byte := 124

def colon : Byte := 58

/-- Compare a name with the bytes at `bp`: whether one of the separators is behind it, and `bp`. -/
def compareName (mem : List Byte) : List Byte → Nat → Option (Bool × Nat)
  | [], bp => do
    let c ← mem[bp]?
    return (c = bar ∨ c = colon ∨ c = 0, bp)
  | n :: np, bp => do
    let c ← mem[bp]?
    if c ≠ n then return (false, bp + 1) else compareName mem np (bp + 1)

/-- Skip to the next name from index `bp`, where the bytes are the given ones. -/
def skipName : List Byte → Nat → Option (Option Nat)
  | [], _ => none
  | c :: l, bp =>
    if c = 0 ∨ c = colon then some none
    else if c = bar then some (some (bp + 1)) else skipName l (bp + 1)

/-- The loop of `cgetmatch`. It has no result when a byte outside of the record is read or the turns
do not suffice. -/
def matchLoop (mem name : List Byte) : Nat → Nat → Option Int
  | 0, _ => none
  | turns + 1, bp => do
    let (hit, bp) ← compareName mem name bp
    if hit then return 0
    -- `bp--` may leave the record
    else if bp = 0 then none
    else match ← skipName (mem.drop (bp - 1)) (bp - 1) with
      | none => return -1
      | some bp => matchLoop mem name turns bp

def cgetmatch (buf name : List Byte) : Option Int := matchLoop buf name buf.length 0

/-! ## The search -/

def sep (c : Byte) : Bool := c = bar ∨ c = colon

def names (record : List Byte) : List (List Byte) := (record.takeWhile (· ≠ colon)).splitOn bar

/-- A name is at the start of the text, with a separator or the end behind it. -/
def Hit (name s : List Byte) : Prop := ∃ l, s = name ++ l ∧ ∀ c ∈ l.head?, sep c

/-- Where the search goes on when a name was not found at the start of the text: where the two
differ, or at the last byte of the name. -/
def rest : List Byte → List Byte → List Byte
  | n :: m :: np, c :: s => if c = n then rest (m :: np) s else c :: s
  | _, s => s

/-- The text behind the next `|`, before which there is no `:`. -/
def behind (s : List Byte) : Option (List Byte) :=
  match s.dropWhile (!sep ·) with
  | c :: s' => if c = bar then some s' else none
  | [] => none

/-- The name is compared with the text at `t`. -/
def Tried (name record t : List Byte) : Prop :=
  Relation.ReflTransGen (fun s s' => behind (rest name s) = some s') record t

variable {name record mem s t u : List Byte} {bp turns : Nat} {n c : Byte}

theorem sep_eq_false : sep c = false ↔ c ≠ bar ∧ c ≠ colon := by simp [sep]

theorem tried_iff : Tried name s t ↔
    s = t ∨ ∃ s', behind (rest name s) = some s' ∧ Tried name s' t :=
  Relation.ReflTransGen.cases_head_iff

theorem names_bar (h : ∀ c ∈ u, sep c = false) : names (u ++ bar :: s) = u :: names s := by
  have hu : ∀ c ∈ u, c ≠ bar ∧ c ≠ colon := fun c hc => sep_eq_false.1 (h c hc)
  rw [names, List.takeWhile_append_of_pos (by simpa using fun c hc => (hu c hc).2),
    List.takeWhile_cons_of_pos (by decide)]
  exact List.splitOnP_append_cons_of_forall_mem (by simpa using fun c hc => (hu c hc).1) bar
    (by simp) _

theorem names_last (h : ∀ c ∈ u, sep c = false) (hs : s.takeWhile (· ≠ colon) = []) :
    names (u ++ s) = [u] := by
  have hu : ∀ c ∈ u, c ≠ bar ∧ c ≠ colon := fun c hc => sep_eq_false.1 (h c hc)
  rw [names, List.takeWhile_append_of_pos (by simpa using fun c hc => (hu c hc).2), hs,
    List.append_nil]
  exact List.splitOnP_eq_singleton (by simpa using fun c hc => (hu c hc).1)

theorem names_cases (s : List Byte) :
    (behind s = none ∧ names s = [s.takeWhile (!sep ·)]) ∨
      ∃ s', behind s = some s' ∧ names s = s.takeWhile (!sep ·) :: names s' := by
  obtain ⟨u, d, hu, hd, hsplit⟩ : ∃ u d, s.takeWhile (!sep ·) = u ∧ s.dropWhile (!sep ·) = d ∧
      u ++ d = s := ⟨_, _, rfl, rfl, List.takeWhile_append_dropWhile⟩
  have hplain : ∀ c ∈ u, sep c = false := fun c hc => by
    simpa using List.all_eq_true.1 (List.all_takeWhile (p := (!sep ·)) (l := s)) c (hu ▸ hc)
  rw [behind, hu, hd, ← hsplit]
  match d, hd with
  | [], _ => exact .inl ⟨rfl, names_last hplain rfl⟩
  | c :: l, hd =>
    have hc : sep c := by
      have := List.head?_dropWhile_not (!sep ·) s
      simpa [hd] using this
    by_cases hbar : c = bar
    · exact .inr ⟨l, by simp [hbar], hbar ▸ names_bar hplain⟩
    · have hcolon : c = colon := by simpa [sep, hbar] using hc
      exact .inl ⟨by simp [hbar], names_last hplain (by simp [hcolon])⟩

theorem rest_suffix (name s : List Byte) : rest name s <:+ s := by
  induction name, s using rest.induct with
  | case1 n m np s ih =>
    rw [rest, if_pos rfl]
    exact ih.trans (List.suffix_cons ..)
  | case2 n m np c s h => exact ⟨[], by rw [rest, if_neg h, List.nil_append]⟩
  | case3 name s h =>
    have hstop : rest name s = s := by
      rw [rest]
      exact h
    exact ⟨[], by rw [hstop, List.nil_append]⟩

theorem behind_suffix (h : behind s = some t) : bar :: t <:+ s := by
  rw [behind] at h
  have hsuffix := List.dropWhile_suffix (!sep ·) (l := s)
  split at h
  · rename_i c l heq
    split at h
    · rename_i hc
      obtain rfl := Option.some.inj h
      rwa [heq, hc] at hsuffix
    · exact nomatch h
  · exact nomatch h

/-! ## What the loops do -/

theorem getElem?_drop (h : mem.drop bp = c :: s) : mem[bp]? = some c ∧ mem.drop (bp + 1) = s := by
  rw [← List.head?_drop, h, ← List.drop_drop, h]
  exact ⟨rfl, rfl⟩

theorem hit_cons {np : List Byte} : Hit (n :: np) (c :: s) ↔ n = c ∧ Hit np s := by
  simp only [Hit, List.cons_append, List.cons.injEq]
  constructor
  · rintro ⟨l, ⟨rfl, rfl⟩, hl⟩
    exact ⟨rfl, l, rfl, hl⟩
  · rintro ⟨rfl, l, rfl, hl⟩
    exact ⟨l, ⟨rfl, rfl⟩, hl⟩

theorem compareName_spec (hname : name ≠ []) (h0 : 0 ∉ name) (hs : 0 ∉ s)
    (hmem : mem.drop bp = s ++ [0]) :
    (Hit name s ∧ ∃ bp', compareName mem name bp = some (true, bp')) ∨
      (¬ Hit name s ∧ ∃ bp', compareName mem name bp = some (false, bp' + 1) ∧
        mem.drop bp' = rest name s ++ [0]) := by
  induction name generalizing s bp with
  | nil => exact absurd rfl hname
  | cons n np ih =>
    have hn : n ≠ 0 := fun h => h0 (by simp [h])
    cases s with
    | nil =>
      -- the record ends
      obtain ⟨hget, -⟩ := getElem?_drop hmem
      refine .inr ⟨(fun ⟨_, hl, _⟩ => nomatch hl), bp, ?_, ?_⟩
      · simp [compareName, hget, hn.symm]
      · rw [hmem]
        cases np <;> rfl
    | cons c s =>
      obtain ⟨hget, hdrop⟩ := getElem?_drop hmem
      by_cases hc : c = n
      · subst hc
        have hstep : compareName mem (c :: np) bp = compareName mem np (bp + 1) := by
          simp [compareName, hget]
        rw [hit_cons, hstep]
        simp only [true_and]
        cases np with
        | cons m np =>
          rw [rest, if_pos rfl]
          exact ih (by simp) (fun h => h0 (List.mem_cons_of_mem _ h))
            (fun h => hs (List.mem_cons_of_mem _ h)) hdrop
        | nil =>
          have hrest : rest [c] (c :: s) = c :: s := by simp [rest]
          rw [hrest]
          cases s with
          | nil =>
            obtain ⟨hget', -⟩ := getElem?_drop hdrop
            exact .inl ⟨⟨[], rfl, by simp⟩, bp + 1, by simp [compareName, hget']⟩
          | cons d s =>
            obtain ⟨hget', -⟩ := getElem?_drop hdrop
            have hd : d ≠ 0 := fun h => hs (by simp [h])
            by_cases hsep : sep d
            · refine .inl ⟨⟨d :: s, rfl, by simpa using hsep⟩, bp + 1, ?_⟩
              simpa [compareName, hget', hd, sep] using hsep
            · refine .inr ⟨?_, bp, ?_, hmem⟩
              · rintro ⟨l, rfl, hl⟩
                exact hsep (hl d (by simp))
              · simpa [compareName, hget', hd, sep] using hsep
      · refine .inr ⟨fun h => hc (hit_cons.1 h).1.symm, bp, by simp [compareName, hget, hc], ?_⟩
        rw [hmem]
        cases np <;> simp [rest, hc]

theorem skipName_spec (hs : 0 ∉ s) (hmem : mem.drop bp = s ++ [0]) :
    (behind s = none ∧ skipName (s ++ [0]) bp = some none) ∨
      ∃ s' bp', behind s = some s' ∧ skipName (s ++ [0]) bp = some (some bp') ∧
        mem.drop bp' = s' ++ [0] := by
  induction s generalizing bp with
  | nil => exact .inl ⟨rfl, rfl⟩
  | cons c s ih =>
    have hc : c ≠ 0 := fun h => hs (by simp [h])
    obtain ⟨-, hdrop⟩ := getElem?_drop hmem
    rw [List.cons_append, skipName, behind]
    by_cases hbar : c = bar
    · subst hbar
      exact .inr ⟨s, bp + 1, by simp [sep], by simp [bar, colon], hdrop⟩
    · by_cases hcolon : c = colon
      · exact .inl ⟨by simp [hcolon, sep, bar, colon], by simp [hcolon]⟩
      · have := ih (fun h => hs (List.mem_cons_of_mem _ h)) hdrop
        simpa [hc, hbar, hcolon, sep, behind] using this

theorem matchLoop_spec (hname : name ≠ []) (h0 : 0 ∉ name) (hs : 0 ∉ s)
    (hmem : mem.drop bp = s ++ [0]) (hturns : s.length < turns) :
    ∃ r, matchLoop mem name turns bp = some r ∧ (r = 0 ↔ ∃ t, Tried name s t ∧ Hit name t) := by
  induction turns generalizing s bp with
  | zero => exact absurd hturns (Nat.not_lt_zero _)
  | succ turns ih =>
    rw [matchLoop]
    rcases compareName_spec hname h0 hs hmem with ⟨hhit, bp', hcmp⟩ | ⟨hhit, bp', hcmp, hrest⟩
    · exact ⟨0, by simp [hcmp], iff_of_true rfl ⟨s, .refl, hhit⟩⟩
    · have hle := (rest_suffix name s).length_le
      have h0' : 0 ∉ rest name s := fun h => hs ((rest_suffix name s).subset h)
      simp only [hcmp, Option.bind_eq_bind, Option.bind_some, Nat.add_sub_cancel, hrest]
      rcases skipName_spec h0' hrest with ⟨hnone, hskip⟩ | ⟨s', bp'', hsome, hskip, hmem'⟩
      · refine ⟨-1, by simp [hskip], iff_of_false (by decide) ?_⟩
        rintro ⟨t, htried, hhit'⟩
        rcases tried_iff.1 htried with rfl | ⟨s', hs', -⟩
        · exact hhit hhit'
        · rw [hnone] at hs'
          exact nomatch hs'
      · have hsuffix := behind_suffix hsome
        have hlt := hsuffix.length_le
        rw [List.length_cons] at hlt
        have h0'' : 0 ∉ s' := fun h => h0' (hsuffix.subset (List.mem_cons_of_mem _ h))
        obtain ⟨r, hr, hiff⟩ := ih h0'' hmem' (by omega)
        refine ⟨r, by simpa [hskip] using hr, hiff.trans ⟨?_, ?_⟩⟩
        · rintro ⟨t, htried, hhit'⟩
          exact ⟨t, tried_iff.2 (.inr ⟨s', hsome, htried⟩), hhit'⟩
        · rintro ⟨t, htried, hhit'⟩
          rcases tried_iff.1 htried with rfl | ⟨s'', hs'', htried'⟩
          · exact absurd hhit' hhit
          · obtain rfl := Option.some.inj (hsome.symm.trans hs'')
            exact ⟨t, htried', hhit'⟩

/-! ## The names that are found -/

theorem takeWhile_plain (s : List Byte) :
    ∀ c ∈ s.takeWhile (!sep ·), sep c = false := fun c hc => by
  simpa using List.all_eq_true.1 (List.all_takeWhile (p := (!sep ·)) (l := s)) c hc

theorem names_plain (s : List Byte) : ∀ u ∈ names s, ∀ c ∈ u, sep c = false := by
  induction hn : s.length using Nat.strongRecOn generalizing s with
  | ind n ih =>
    rcases names_cases s with ⟨-, heq⟩ | ⟨s', hs', heq⟩
    · rw [heq, List.forall_mem_singleton]
      exact takeWhile_plain s
    · rw [heq, List.forall_mem_cons]
      exact ⟨takeWhile_plain s, ih _ (hn ▸ (behind_suffix hs').length_le) s' rfl⟩

theorem behind_rest (h : ∀ c ∈ name, sep c = false) : behind (rest name s) = behind s := by
  induction name, s using rest.induct with
  | case1 m np n s ih =>
    have hn := h n (by simp)
    rw [rest, if_pos rfl, ih fun c hc => h c (List.mem_cons_of_mem _ hc), behind, behind,
      List.dropWhile_cons_of_pos (by simp [hn])]
  | case2 n m np c s hne => rw [rest, if_neg hne]
  | case3 name s hne =>
    rw [rest]
    exact hne

theorem hit_plain (h : ∀ c ∈ name, sep c = false) : Hit name s ↔ s.takeWhile (!sep ·) = name := by
  constructor
  · rintro ⟨l, rfl, hl⟩
    rw [List.takeWhile_append_of_pos (by simpa using h)]
    cases l with
    | nil => simp
    | cons c l => simp [hl c (by simp)]
  · rintro rfl
    refine ⟨s.dropWhile (!sep ·), List.takeWhile_append_dropWhile.symm, fun c hc => ?_⟩
    have := List.head?_dropWhile_not (!sep ·) s
    rw [Option.mem_def.1 hc] at this
    simpa using this

theorem tried_plain (h : ∀ c ∈ name, sep c = false) (s : List Byte) :
    (∃ t, Tried name s t ∧ Hit name t) ↔ name ∈ names s := by
  induction hn : s.length using Nat.strongRecOn generalizing s with
  | ind n ih =>
    have hstep : (∃ t, Tried name s t ∧ Hit name t) ↔ s.takeWhile (!sep ·) = name ∨
        ∃ s', behind s = some s' ∧ ∃ t, Tried name s' t ∧ Hit name t := by
      simp only [tried_iff (s := s), behind_rest h, ← hit_plain h]
      grind
    rw [hstep]
    rcases names_cases s with ⟨hnone, heq⟩ | ⟨s', hs', heq⟩
    · simp [hnone, heq, eq_comm]
    · simp [hs', heq, eq_comm, ih _ (hn ▸ (behind_suffix hs').length_le) s' rfl]

/-- `cgetmatch` ends, reads the record only and finds exactly the record's names, unless the name is
empty and the record begins with another one, or the name has a `|` or `:` in it and is found across
the separators of the record. -/
theorem cgetmatch_iff (hrecord : 0 ∉ record) (h0 : 0 ∉ name) :
    (∃ r, cgetmatch (record ++ [0]) name = some r ∧ (r = 0 ↔ name ∈ names record)) ↔
      (name = [] → ∀ c ∈ record.head?, sep c) ∧
        ((∃ c ∈ name, sep c) → ∀ t, Tried name record t → ¬ Hit name t) := by
  by_cases hname : name = []
  · subst hname
    cases record with
    | nil => simp [cgetmatch, matchLoop, compareName, names]
    | cons c record =>
      have hc : c ≠ 0 := fun h => hrecord (by simp [h])
      by_cases hsep : sep c
      · have hmem : [] ∈ names (c :: record) := by
          rcases names_cases (c :: record) with ⟨-, heq⟩ | ⟨_, -, heq⟩ <;> simp [heq, hsep]
        have hhit : c = bar ∨ c = colon ∨ c = 0 := by simpa [sep, hc] using hsep
        simp [cgetmatch, matchLoop, compareName, hmem, hsep, hhit]
      · have hhit : ¬ (c = bar ∨ c = colon ∨ c = 0) := by simpa [sep, hc] using hsep
        simp [cgetmatch, matchLoop, compareName, hsep, hhit]
  · obtain ⟨r, hrun, hr⟩ : ∃ r, cgetmatch (record ++ [0]) name = some r ∧
        (r = 0 ↔ ∃ t, Tried name record t ∧ Hit name t) :=
      matchLoop_spec hname h0 hrecord rfl (by simp)
    simp only [hrun, Option.some.injEq, exists_eq_left', hname, false_implies, true_and, hr]
    by_cases hplain : ∃ c ∈ name, sep c
    · have hno : name ∉ names record := fun h => by
        obtain ⟨c, hc, hsep⟩ := hplain
        simp [names_plain record name h c hc] at hsep
      simp only [hno, iff_false, hplain, true_implies, not_exists, not_and]
    · have hname' : ∀ c ∈ name, sep c = false := by simpa using hplain
      exact iff_of_true (tried_plain hname' record) fun h => absurd h hplain

theorem cgetmatch_second :
    ∃ r, cgetmatch ([97, 124, 98, 58, 99] ++ [0]) [98] = some r ∧
      (r = 0 ↔ [98] ∈ names [97, 124, 98, 58, 99]) :=
  (cgetmatch_iff (by decide) (by decide)).2 ⟨by simp, by simp [sep, bar, colon]⟩

theorem cgetmatch_empty_name :
    ¬ ∃ r, cgetmatch ([97, 98] ++ [0]) [] = some r ∧ (r = 0 ↔ [] ∈ names [97, 98]) := by
  have hrun : cgetmatch ([97, 98] ++ [0]) [] = none := by decide
  rintro ⟨r, hr, -⟩
  exact nomatch hrun.symm.trans hr

end Bsdi.Getcap
