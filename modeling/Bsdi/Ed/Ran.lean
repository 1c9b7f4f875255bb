import Bsdi.Ed.Edits

/-!
# Runs of the commands

Each command, for addresses in the buffer, has a result: a linked buffer of old and new lines, from
which undo can come back.
-/

namespace Bsdi.Ed

open Bsdi.Lib

/-- A command ran, from the state behind `u_clr_stk` with the lines `B` to one with the lines
`B'`. -/
structure Ran (B B' : List Line) (e e' : Editor) : Prop where
  kept : Kept e.fresh B e e'
  buf : e'.Buf B'
  lines : ∀ l ∈ B', l ∈ B ∨ e.fresh ≤ l
  deleted : e'.dStk = e.dStk ∨ ∃ R start fini, e'.dStk = (start, fini) :: e.dStk ∧
    Range e'.mem R start fini ∧ ∀ l ∈ R, l ∈ B ∧ l ∉ B'

variable {e e' : Editor} {B B' P R S : List Line} {start fini : Line}

theorem Ran.current (h : Ran B B' e e') (c : Option Line) : Ran B B' e { e' with current := c } :=
  ⟨h.kept.ends _ _ _ _, ⟨h.buf.nodup, h.buf.links, h.buf.top, h.buf.bottom, h.buf.lines⟩, h.lines,
    h.deleted⟩

theorem Editor.Buf.ran (h : e.Buf B) : Ran B B e e :=
  ⟨.refl e, h, fun _ => .inl, .inl rfl⟩

theorem Editor.Buf.range_delete (hbuf : e.Buf (P ++ R ++ S)) (hs : first R = some start)
    (hf : last R = some fini) (hsame : SameLinks (tie e.mem (last P) (first S)) e'.mem) :
    Range e'.mem R start fini := by
  have hR := (seg_append.1 (seg_append.1 hbuf.links).1).2
  have hd := hbuf.nodup
  simp only [List.nodup_append] at hd
  apply (hR.range hd.1.2.1 hs hf).congr
  intro l hl
  rw [(hsame l).2, tie_below, if_neg]
  intro hc
  exact hd.1.2.2 l (last_mem hc) l hl rfl

theorem Ran.delete {e₁ : Editor} (hk : Kept e.fresh B e e₁) (hbuf : e₁.Buf (P ++ R ++ S))
    (hds : e₁.dStk = e.dStk) (hP : ∀ l ∈ P, l ∈ B ∨ e.fresh ≤ l) (hR : ∀ l ∈ R, l ∈ B)
    (hS : ∀ l ∈ S, l ∈ B) (hs : first R = some start) (hf : last R = some fini) :
    ∃ e', e₁.delete start fini = some e' ∧ Ran B (P ++ S) e e' ∧
      e'.current = headKey some (last P) S ∧ e'.fresh = e₁.fresh ∧
      SameLinks (tie e₁.mem (last P) (first S)) e'.mem := by
  obtain ⟨e', hrun, hk', hb, hc, hd, hfr, hsame⟩ := hbuf.delete hs hf hP
  have hnd := hbuf.nodup
  simp only [List.nodup_append, List.mem_append] at hnd
  have hrange := hbuf.range_delete hs hf hsame
  refine ⟨e', hrun, ⟨hk.trans hk', hb, ?_, .inr ⟨R, start, fini, ?_, hrange, ?_⟩⟩, hc, hfr, hsame⟩
  · intro l hl
    rcases List.mem_append.1 hl with hl | hl
    · exact hP l hl
    · exact .inl (hS l hl)
  · rw [hd, hds]
  · intro l hl
    refine ⟨hR l hl, ?_⟩
    intro hc
    rcases List.mem_append.1 hc with hc | hc
    · exact hnd.1.2.2 l hc l hl rfl
    · exact hnd.2.2 l (.inr hl) l hc rfl

theorem Ran.inputLines (h : Ran B (P ++ S) e e') (hs : List Nat) (hlt : ∀ l ∈ B, l < e.fresh) :
    ∃ B', Ran B B' e (e'.inputLines (last P) hs) := by
  have hfr := h.kept.fresh
  have hP : ∀ l ∈ P, l ∈ B ∨ e.fresh ≤ l := fun l hl => h.lines l (List.mem_append_left S hl)
  obtain ⟨N, hN, hk, hb, hd⟩ := h.buf.inputLines hs hfr hP
  -- The lines that were deleted are not behind the line where the input starts.
  obtain ⟨-, -, hk', -, -⟩ := h.buf.inputLines hs (Nat.le_refl _) (B := P) fun l hl => .inl hl
  refine ⟨P ++ N ++ S, h.kept.trans hk, hb, ?_, ?_⟩
  · intro l hl
    simp only [List.mem_append] at hl
    rcases hl with (hl | hl) | hl
    · exact hP l hl
    · exact .inr (Nat.le_trans hfr (hN l hl))
    · exact h.lines l (List.mem_append_right P hl)
  · rw [hd]
    apply h.deleted.imp_right
    rintro ⟨R, start, fini, hds, hR, hRB⟩
    refine ⟨R, start, fini, hds, hR.congr ?_, ?_⟩
    · intro l hl
      apply hk'.frame l (Nat.lt_of_lt_of_le (hlt l (hRB l hl).1) hfr)
      intro hc
      exact (hRB l hl).2 (List.mem_append_left S hc)
    · intro l hl
      refine ⟨(hRB l hl).1, ?_⟩
      intro hc
      simp only [List.mem_append] at hc
      rcases hc with (hc | hc) | hc
      · exact (hRB l hl).2 (List.mem_append_left S hc)
      · exact Nat.not_lt.2 (Nat.le_trans hfr (hN l hc)) (hlt l (hRB l hl).1)
      · exact (hRB l hl).2 (List.mem_append_right P hc)

/-! ### The commands -/

theorem uClrStk_eq (e : Editor) : ∃ dStk freed, e.uClrStk = { e with
    uCurrent := e.current, uTop := e.top, uBottom := e.bottom, uStk := [], oldDStk := [], dStk,
    freed } := by
  unfold Editor.uClrStk
  simp only
  split
  · exact ⟨_, _, rfl⟩
  · exact ⟨_, _, rfl⟩

@[simp]
theorem uClrStk_fresh : e.uClrStk.fresh = e.fresh := by
  obtain ⟨_, _, heq⟩ := uClrStk_eq e
  rw [heq]

theorem Editor.Buf.uClrStk (h : e.Buf B) : e.uClrStk.Buf B := by
  obtain ⟨_, _, heq⟩ := uClrStk_eq e
  rw [heq]
  exact ⟨h.nodup, h.links, h.top, h.bottom, h.lines⟩

theorem exists_cut {dest : Option Line} (h : ∀ l, dest = some l → l ∈ B) :
    ∃ P S, B = P ++ S ∧ last P = dest := by
  cases dest with
  | none => exact ⟨[], B, rfl, rfl⟩
  | some l =>
    obtain ⟨P, S, rfl⟩ := List.append_of_mem (h l rfl)
    exact ⟨P ++ [l], S, by simp, lastKey_concat⟩

theorem Editor.Buf.a {start : Option Line} (hbuf : e.Buf B) (h : ∀ l, start = some l → l ∈ B)
    (hs : List Nat) : ∃ B', Ran B B' e.uClrStk (e.a start hs) := by
  obtain ⟨P, S, rfl, rfl⟩ := exists_cut h
  exact hbuf.uClrStk.ran.inputLines hs hbuf.uClrStk.lines

theorem Editor.Buf.i {line : Line} (hbuf : e.Buf B) (h : line ∈ B) (hs : List Nat) :
    ∃ B', Ran B B' e.uClrStk (e.i line hs) := by
  apply hbuf.a
  obtain ⟨P, S, rfl⟩ := List.append_of_mem h
  intro l hl
  rw [(linked_append_cons.1 hbuf.links).2.1.1] at hl
  exact List.mem_append_left _ (last_mem hl)

theorem Editor.Buf.d (hbuf : e.Buf (P ++ R ++ S)) (hs : first R = some start)
    (hf : last R = some fini) :
    ∃ e', e.d start fini = some e' ∧ Ran (P ++ R ++ S) (P ++ S) e.uClrStk e' := by
  obtain ⟨e', hrun, hran, -⟩ := Ran.delete (B := P ++ R ++ S) (.refl e.uClrStk) hbuf.uClrStk rfl
    (fun l hl => .inl (by simp [hl])) (fun l hl => by simp [hl]) (fun l hl => by simp [hl]) hs hf
  exact ⟨e', hrun, hran⟩

theorem Editor.Buf.bottom_eq_fini (hbuf : e.Buf (P ++ R ++ S)) (hf : last R = some fini) :
    e.bottom = some fini ↔ S = [] := by
  rw [hbuf.bottom]
  rcases List.eq_nil_or_concat' S with rfl | ⟨S', s, rfl⟩
  · simp [lastKey_of_last hf]
  · have hd := hbuf.nodup
    simp only [List.nodup_append, List.mem_append] at hd
    rw [← List.append_assoc, last, lastKey_concat]
    simp only [Option.some.injEq, List.append_eq_nil_iff, List.cons_ne_nil, and_false, iff_false]
    intro hc
    exact hd.2.2 fini (.inr (last_mem hf)) s (by simp) hc.symm

theorem Editor.Buf.top_eq_start (hbuf : e.Buf (P ++ R ++ S)) (hs : first R = some start) :
    e.top = some start ↔ P = [] := by
  rw [hbuf.top]
  cases P with
  | nil => simp [headKey_of_first hs]
  | cons p P =>
    have hd := hbuf.nodup
    simp only [List.nodup_append] at hd
    simp only [first, List.cons_append, headKey_cons, Option.some.injEq, List.cons_ne_nil,
      iff_false]
    exact hd.1.2.2 p (by simp) start (first_mem hs)

theorem Editor.Buf.c (hbuf : e.Buf (P ++ R ++ S)) (hs : first R = some start)
    (hf : last R = some fini) (hh : List Nat) :
    ∃ e' B', e.c start fini hh = some e' ∧ Ran (P ++ R ++ S) B' e.uClrStk e' := by
  obtain ⟨e₁, hrun, hran, hcur, -, hsame⟩ := Ran.delete (B := P ++ R ++ S)
    (.refl e.uClrStk) hbuf.uClrStk rfl
    (fun l hl => .inl (by simp [hl])) (fun l hl => by simp [hl]) (fun l hl => by simp [hl]) hs hf
  have hbo := hbuf.bottom_eq_fini hf
  have hc : e₁.current.bind (fun l => if e.bottom = some fini then some l else e₁.mem
    (.above l)) = last P := by
    rw [hcur]
    cases S with
    | nil =>
      rw [headKey_nil, hbo.2 rfl]
      cases last P <;> simp
    | cons s S =>
      rw [headKey_cons, Option.bind_some, if_neg (by simp [hbo]), (hsame s).1, tie_above,
        if_pos headKey_cons]
  obtain ⟨B', hran'⟩ := (hran.current (last P)).inputLines hh hbuf.uClrStk.lines
  refine ⟨_, B', ?_, hran'⟩
  simp only [Editor.c, Editor.d, hrun, Option.pure_def, Option.bind_eq_bind, Option.bind_some, hc]

theorem Editor.Buf.j (hbuf : e.Buf (P ++ R ++ S)) (hs : first R = some start)
    (hf : last R = some fini) (h : Nat) :
    ∃ e' B', e.j start fini h = some e' ∧ Ran (P ++ R ++ S) B' e.uClrStk e' := by
  have hbuf₀ := hbuf.uClrStk
  have htop := hbuf₀.top_eq_start hs
  generalize hclr : e.uClrStk = e₀ at hbuf₀ htop ⊢
  have hnd : (P ++ (R ++ S)).Nodup := by simpa using hbuf₀.nodup
  have hlines : ∀ l ∈ P ++ (R ++ S), l < e₀.fresh := by simpa using hbuf₀.lines
  obtain ⟨hP, hRS⟩ := seg_append.1 (by simpa using hbuf₀.links :
    Seg e₀.mem none (P ++ (R ++ S)) none)
  have hsR : first (R ++ S) = some start := by simp [headKey_of_first hs]
  have hltP : ∀ l ∈ P, l < e₀.fresh := fun l hl => hlines l (List.mem_append_left _ hl)
  -- The new line, behind the lines before the range.
  obtain ⟨e₁, hrun₁, hg, ht₁⟩ : ∃ e₁, e₀.joined start h = some e₁ ∧
      Grown e₀.fresh (P ++ R ++ S) (headKey some none (R ++ S)) P [e₀.fresh] e₀ e₁ ∧
      e₁.top = first (P ++ [e₀.fresh]) := by
    have hk := (Kept.refl (B := P ++ R ++ S) e₀).newLine (Nat.le_refl _) h (last P) none
    rcases List.eq_nil_or_concat' P with rfl | ⟨P', p, rfl⟩
    · exact ⟨_, if_pos (htop.2 rfl), .step h hP (by simp) hltP (hk.ends _ _ _ _) rfl rfl rfl rfl,
      rfl⟩
    · have hlp : last (P' ++ [p]) = some p := lastKey_concat
      have ha : e₀.mem (.above start) = some p := (hRS.above_first hsR).trans hlp
      refine ⟨(e₀.newLine h (some p) none).store (.below p) (some e₀.fresh), ?_,
        .step h hP (List.nodup_append.1 hnd).1 hltP ?_ (by rw [hlp]; rfl) rfl rfl rfl, ?_⟩
      · rw [Editor.joined, if_neg (by simp [htop]), ha]
        rfl
      · rw [hlp] at hk
        exact hk.store (.below p) (.inl (by simp)) _
      · change e₀.top = _
        rw [hbuf₀.top]
        cases P' <;> rfl
  have hS₁ := hg.rest hnd (fun l hl => hlines l (List.mem_append_right P hl)) hRS
  have hnd₁ := hg.nodup hnd hlines
  let e₂ := (e₁.put (.below e₀.fresh) (some start)).store (.above start) (some e₀.fresh)
  have hk₂ : Kept e₀.fresh (P ++ R ++ S) e₀ e₂ := by
    apply Kept.store _ (.above start) trivial
    exact hg.kept.put (.below e₀.fresh) (.inr (Nat.le_refl _))
      (fun h => absurd h (Nat.lt_irrefl _)) _
  have hbuf₂ : e₂.Buf (P ++ [e₀.fresh] ++ R ++ S) := by
    have hlf : last (P ++ [e₀.fresh]) = some e₀.fresh := lastKey_concat
    rw [List.append_assoc _ R S]
    apply Editor.Buf.of_tie hg.links hS₁ hnd₁
    · intro l
      rw [hsR, hlf]
      simp [e₂, eq_comm]
    · change e₁.top = _
      rw [ht₁]
      cases P <;> rfl
    · change e₁.bottom = _
      rw [hg.bottom, hbuf₀.bottom]
      simp [lastKey_of_last hf]
    · intro l hl
      rcases List.mem_append.1 hl with hl | hl
      · rcases List.mem_append.1 hl with hl | hl
        · exact Nat.lt_of_lt_of_le (hltP l hl) hg.kept.fresh
        · exact (hg.fresh_le hl).2
      · exact Nat.lt_of_lt_of_le (hlines l (List.mem_append_right P hl)) hg.kept.fresh
  obtain ⟨e', hrun, hran, -⟩ := Ran.delete (B := P ++ R ++ S) hk₂ hbuf₂ hg.dStk
    (fun l hl => by
      rcases List.mem_append.1 hl with hl | hl
      · exact .inl (by simp [hl])
      · exact .inr (hg.fresh_le hl).1)
    (fun l hl => by simp [hl]) (fun l hl => by simp [hl]) hs hf
  refine ⟨_, _, ?_, hran.current (some e₀.fresh)⟩
  simp only [Editor.j, hclr, hrun₁, Option.pure_def, Option.bind_eq_bind, Option.bind_some]
  rw [hrun, Option.bind_some]

theorem Editor.Buf.of_insert {mem : Cell → Option Line} {N : List Line} {x y z w : Option Line}
    {tb te : Line} (hP : Seg mem none P x) (hN : Seg mem y N z) (hS : Seg mem w S none)
    (hd : (P ++ N ++ S).Nodup) (htb : first N = some tb) (hte : last N = some te)
    (hsame : SameLinks (tie (tie mem (last P) (some tb)) (some te) (first S)) e.mem)
    (ht : e.top = first (P ++ N ++ S)) (hb : e.bottom = last (P ++ N ++ S))
    (hlt : ∀ l ∈ P ++ N ++ S, l < e.fresh) : e.Buf (P ++ N ++ S) := by
  have hdisj := hd
  simp only [List.nodup_append, List.mem_append] at hdisj
  have hPN : Seg (tie mem (last P) (some tb)) none (P ++ N) z := by
    have htie := hP.tie hN (List.nodup_append.1 hd).1 fun hnil => by simp [hnil] at htb
    rwa [headKey_of_first htb] at htie
  have hS' : Seg (tie mem (last P) (some tb)) w S none := by
    apply hS.tie_other
    · intro l hl hc
      exact hdisj.2.2 l (.inl (last_mem hc)) l hl rfl
    · rintro l hl ⟨⟩
      exact hdisj.2.2 tb (.inr (first_mem htb)) tb hl rfl
  apply Editor.Buf.of_tie hPN hS' hd _ ht hb hlt
  have hlast : last (P ++ N) = some te := by
    rw [last, lastKey_append]
    exact lastKey_of_last hte
  rwa [hlast]

theorem copies_tied {n : Nat} {tb te : Line} (htop : e.top = first (P ++ S))
    (hbot : e.bottom = last (P ++ S)) (hne : P ++ S ≠ []) (hd : (P ++ S).Nodup)
    (hnext : ∀ p, last P = some p → e.mem (.below p) = first S) (htb : ¬ tb < n) (hte : ¬ te < n)
    (hB : ∀ l ∈ P, l ∈ B) :
    ∃ next e₂ e₃, e.copyFirst (last P) tb = some (next, e₂) ∧
      e₂.copyLast (last P) next te = some e₃ ∧ Kept n B e e₃ ∧
      SameLinks (tie (tie e.mem (last P) (some tb)) (some te) (first S)) e₃.mem ∧
      e₃.top = headKey some (some tb) P ∧ e₃.bottom = lastKey some (some te) S ∧ e₃.dStk = e.dStk ∧
      e₃.fresh = e.fresh := by
  rcases List.eq_nil_or_concat' P with rfl | ⟨P', p, rfl⟩
  · obtain ⟨s, S, rfl⟩ := List.exists_cons_of_ne_nil (by simpa using hne)
    have hb : e.bottom ≠ none := by
      rw [hbot]
      simp only [List.nil_append, ne_eq, last_eq_none]
      simp
    let e₁ : Editor := { e.store (.above s) (some tb) with top := some tb }
    let e₂ := e₁.put (.above tb) none
    refine ⟨some s, e₂, (e₂.put (.below te) (some s)).store (.above s) (some te), ?_, ?_, ?_, ?_,
      rfl, ?_, rfl, rfl⟩
    · simp [Editor.copyFirst, htop, e₂, e₁]
    · simp [Editor.copyLast, show e₂.bottom = e.bottom from rfl, hb]
    · have hk₁ : Kept n B e e₁ := ((Kept.refl e).store (.above s) trivial (some tb)).ends _ _ _ _
      apply Kept.store _ (.above s) trivial
      apply Kept.put _ (.below te) (.inr (Nat.not_lt.1 hte)) fun hold => absurd hold hte
      exact hk₁.put (.above tb) trivial (fun hold => absurd hold htb) _
    · intro l
      by_cases hl : l = s
      · simp [e₁, e₂, hl, eq_comm]
      · simp [e₁, e₂, eq_comm, Ne.symm hl]
    · change e.bottom = _
      rw [hbot]
      simp
  · have hlp : last (P' ++ [p]) = some p := lastKey_concat
    rw [hlp]
    have hn := hnext p hlp
    let e₂ := ((e.uAddStk (.below p)).put (.above tb) (some p)).put (.below p) (some tb)
    have hfirst : e.copyFirst (some p) tb = some (first S, e₂) := by
      rw [Editor.copyFirst, ← hn]
      rfl
    have hk₂ : Kept n B e e₂ := by
      apply Kept.put _ (.below p) (.inl (hB p (by simp))) fun _ =>
        by simp [Editor.put, Editor.uAddStk]
      apply Kept.put _ (.above tb) trivial fun hold => absurd hold htb
      exact (Kept.refl e).uAddStk _
    have hte' : ∀ v, Kept n B e (e₂.put (.below te) v) :=
      hk₂.put (.below te) (.inr (Nat.not_lt.1 hte)) fun hold => absurd hold hte
    have htop₂ : e₂.top = headKey some (some tb) (P' ++ [p]) := by
      change e.top = _
      rw [htop]
      cases P' <;> rfl
    cases S with
    | nil =>
      have hb : e₂.bottom = some p := by
        change e.bottom = _
        rw [hbot]
        simp
      refine ⟨none, e₂, { e₂.put (.below te) none with bottom := some te }, hfirst, if_pos hb,
        (hte' none).ends _ _ _ _, ?_, htop₂, rfl, rfl, rfl⟩
      intro l
      simp [e₂, eq_comm]
    | cons s S =>
      have hb : e₂.bottom ≠ some p := by
        change e.bottom ≠ _
        rw [hbot]
        intro hc
        exact (List.nodup_append.1 hd).2.2 p (by simp) p (last_mem (by simpa using hc)) rfl
      refine ⟨some s, e₂, (e₂.put (.below te) (some s)).store (.above s) (some te), hfirst,
        if_neg hb,
        (hte' _).store (.above s) trivial _, ?_, htop₂, ?_, rfl, rfl⟩
      · intro l
        simp [e₂, eq_comm]
      · change e.bottom = _
        rw [hbot]
        simp

theorem Editor.Buf.t {dest : Option Line} (hbuf : e.Buf (P ++ R ++ S)) (hs : first R = some start)
    (hf : last R = some fini) (hdest : ∀ l, dest = some l → l ∈ P ++ R ++ S) (add : Nat → Nat) :
    ∃ e' B', e.t add start fini dest = some e' ∧ Ran (P ++ R ++ S) B' e.uClrStk e' := by
  have hbuf₀ := hbuf.uClrStk
  have hR := (seg_append.1 (seg_append.1 hbuf₀.links).1).2
  have hndR := (List.nodup_append.1 (List.nodup_append.1 hbuf₀.nodup).1).2.1
  have hwalk := (hR.range hndR hs hf).walk_eq (length_le_of_lt hndR fun l hl =>
    hbuf₀.lines l (by simp [hl]))
  have hRne : R ≠ [] := List.ne_nil_of_mem (first_mem hs)
  have hBne : P ++ R ++ S ≠ [] := by simp [hRne]
  generalize P ++ R ++ S = B at hbuf₀ hdest hBne ⊢
  generalize hclr : e.uClrStk = e₀ at hbuf₀ hwalk ⊢
  clear hR hndR
  obtain ⟨P, S, rfl, rfl⟩ := exists_cut hdest
  obtain ⟨hP, hS⟩ := seg_append.1 hbuf₀.links
  have hltP : ∀ l ∈ P, l < e₀.fresh := fun l hl => hbuf₀.lines l (List.mem_append_left S hl)
  have hltS : ∀ l ∈ S, l < e₀.fresh := fun l hl => hbuf₀.lines l (List.mem_append_right P hl)
  -- The copies.
  obtain ⟨N, e₁, hcopy, hg, ht₁, hN⟩ := copyLoop_grown (e := e₀) (N := []) (x := none) (B := P ++ S)
    (R.map fun l => add (e₀.handle l)) trivial (by simp) (by simp) (Nat.le_refl _) (by simp)
  obtain ⟨tb, te, htb, hte, hends⟩ := ends_eq (hN (by simpa using hRne))
  have hmem₁ : ∀ c : Cell, c.Old e₀.fresh → e₁.mem c = e₀.mem c := fun c hc =>
    hg.frame c hc (by simp)
  have hP₁ := hP.congr fun l hl => ⟨hmem₁ (.above l) (hltP l hl), hmem₁ (.below l) (hltP l hl)⟩
  have hS₁ := hS.congr fun l hl => ⟨hmem₁ (.above l) (hltS l hl), hmem₁ (.below l) (hltS l hl)⟩
  have hN₁ : Seg e₁.mem none N none := by
    have hseg := hg.links
    simpa using hseg
  have hnew : ∀ l ∈ N, ¬ l < e₀.fresh := fun l hl => Nat.not_lt.2 (hg.fresh_le hl).1
  have htbN := hnew tb (first_mem htb)
  have hteN := hnew te (last_mem hte)
  have hnd : (P ++ N ++ S).Nodup := by
    have hnd := hg.nodup (S := P ++ S) (by simpa using hbuf₀.nodup) (by simpa using hbuf₀.lines)
    rw [List.append_assoc]
    exact (List.perm_append_comm_assoc P N S).nodup_iff.2 hnd
  have hlt₁ : ∀ l ∈ P ++ N ++ S, l < e₁.fresh := by
    intro l hl
    simp only [List.mem_append] at hl
    rcases hl with (hl | hl) | hl
    · exact Nat.lt_of_lt_of_le (hltP l hl) hg.kept.fresh
    · exact (hg.fresh_le hl).2
    · exact Nat.lt_of_lt_of_le (hltS l hl) hg.kept.fresh
  obtain ⟨next, e₂, e₃, hfirst, hlast, hk, hsame, ht₃, hb₃, hd₃, hf₃⟩ :=
    copies_tied (e := e₁) (P := P) (S := S) (n := e₀.fresh) (B := P ++ S) (ht₁.trans hbuf₀.top)
      (hg.bottom.trans hbuf₀.bottom) hBne hbuf₀.nodup (fun p hp =>
        hP₁.below_last hp) htbN hteN fun l hl => by simp [hl]
  have hbuf₃ : e₃.Buf (P ++ N ++ S) := by
    apply Editor.Buf.of_insert hP₁ hN₁ hS₁ hnd htb hte hsame
    · rw [ht₃]
      cases P with
      | nil => simp [headKey_of_first htb]
      | cons p P => rfl
    · rw [hb₃]
      simp [lastKey_of_last hte]
    · rwa [hf₃]
  have hran : Ran (P ++ S) (P ++ N ++ S) e₀ e₃ := by
    refine ⟨hg.kept.trans hk, hbuf₃, ?_, .inl (hd₃.trans hg.dStk)⟩
    intro l hl
    simp only [List.mem_append] at hl ⊢
    rcases hl with (hl | hl) | hl
    · exact .inl (.inl hl)
    · exact .inr (hg.fresh_le hl).1
    · exact .inl (.inr hl)
  refine ⟨_, _, ?_, hran.current (some te)⟩
  have hcopy' : e₀.copyLoop (R.map fun l => add (e₀.handle l)) none = (some (tb, te), e₁) := by
    rw [← hends]
    exact hcopy
  simp only [Editor.t, hclr, hwalk, hcopy', hfirst, hlast, Option.pure_def, Option.bind_eq_bind,
    Option.bind_some]

theorem moveOut_spec {n : Nat} (hbuf : e.Buf (P ++ R ++ S)) (hs : first R = some start)
    (hf : last R = some fini) (hne : P ++ S ≠ []) (hB : ∀ l ∈ P, l ∈ B) :
    ∃ e₁, e.moveOut start fini = some e₁ ∧ Kept n B e e₁ ∧
      SameLinks (tie e.mem (last P) (first S)) e₁.mem ∧ e₁.top = first (P ++ S) ∧
      e₁.bottom = last (P ++ S) ∧ e₁.dStk = e.dStk ∧ e₁.fresh = e.fresh := by
  have hR := (seg_append.1 (seg_append.1 hbuf.links).1).2
  have ha : e.mem (.above start) = last P := hR.above_first hs
  have hb : e.mem (.below fini) = first S := hR.below_last hf
  have htop := hbuf.top_eq_start hs
  have hbot := hbuf.bottom_eq_fini hf
  rcases List.eq_nil_or_concat' P with rfl | ⟨P', p, rfl⟩
  · obtain ⟨s, S, rfl⟩ := List.exists_cons_of_ne_nil (by simpa using hne)
    refine ⟨{ e.store (.above s) none with top := some s }, ?_,
      ((Kept.refl e).store (.above s) trivial none).ends _ _ _ _, ?_, rfl, ?_, rfl, rfl⟩
    · simp [Editor.moveOut, htop, hb]
    · intro l
      simp [eq_comm]
    · change e.bottom = _
      rw [hbuf.bottom]
      simp
  · have hlp : last (P' ++ [p]) = some p := lastKey_concat
    rw [hlp] at ha ⊢
    have hk : ∀ v, Kept n B e (e.store (.below p) v) := (Kept.refl e).store (.below p)
      (.inl (hB p (by simp)))
    have htop' : e.top = first (P' ++ [p] ++ S) := by
      rw [hbuf.top]
      cases P' <;> rfl
    cases S with
    | nil =>
      refine ⟨{ e.store (.below p) none with bottom := some p }, ?_, (hk none).ends _ _ _ _, ?_,
        htop', ?_, rfl, rfl⟩
      · simp [Editor.moveOut, htop, hbot, ha]
      · intro l
        simp [eq_comm]
      · simp
    | cons s S =>
      refine ⟨(e.store (.below p) (some s)).store (.above s) (some p), ?_,
        (hk _).store (.above s) trivial _, ?_,
        htop', ?_, rfl, rfl⟩
      · simp [Editor.moveOut, htop, hbot, ha, hb]
      · intro l
        simp [eq_comm]
      · change e.bottom = _
        rw [hbuf.bottom]
        simp

theorem moveIn_spec (start : Line) {n : Nat} {oldTop oldBottom : Option Line} (hne : P ++ S ≠ [])
    (hnext : ∀ p, last P = some p → e.mem (.below p) = first S) (htop : e.top = first (P ++ S))
    (hbot : e.bottom = last (P ++ S)) (hot : P = [] → oldTop = first S)
    (hob : P ≠ [] → (oldBottom = last P ↔ S = [])) (hfP : fini ∉ P) (hB : ∀ l ∈ P, l ∈ B)
    (hfB : fini ∈ B) :
    ∃ e₁, e.moveIn start fini (last P) oldTop oldBottom = some e₁ ∧ Kept n B e e₁ ∧
      SameLinks (tie (tie e.mem (last P) (some start)) (some fini) (first S)) e₁.mem ∧
      e₁.top = headKey some (some start) P ∧ e₁.bottom = lastKey some (some fini) S ∧
      e₁.dStk = e.dStk ∧ e₁.fresh = e.fresh := by
  rcases List.eq_nil_or_concat' P with rfl | ⟨P', p, rfl⟩
  · obtain ⟨s, S, rfl⟩ := List.exists_cons_of_ne_nil (by simpa using hne)
    let e₁ := (e.store (.above start) none).store (.below fini) (some s)
    have hk₁ : Kept n B e e₁ :=
      ((Kept.refl e).store (.above start) trivial none).store (.below fini) (.inl hfB) (some s)
    refine ⟨{ e₁.store (.above s) (some fini) with top := some start }, ?_,
      (hk₁.store (.above s) trivial _).ends _ _ _ _, ?_, rfl, ?_, rfl, rfl⟩
    · simp [Editor.moveIn, hot, e₁]
    · intro l
      simp [e₁, eq_comm]
    · change e.bottom = _
      rw [hbot]
      simp
  · have hlp : last (P' ++ [p]) = some p := lastKey_concat
    rw [hlp] at hob ⊢
    have hob := hob (by simp)
    have hn := hnext p hlp
    have hpf : p ≠ fini := by
      rintro rfl
      simp at hfP
    have hpB := hB p (by simp)
    have htop' : e.top = headKey some (some start) (P' ++ [p]) := by
      rw [htop]
      cases P' <;> rfl
    cases S with
    | nil =>
      let e₁ := (e.store (.below fini) none).store (.above start) (some p)
      let e₂ : Editor := { e₁.store (.below p) (some start) with bottom := some fini }
      have hk₁ : Kept n B e e₁ :=
        ((Kept.refl e).store (.below fini) (.inl hfB) none).store (.above start) trivial (some p)
      have hk₂ : Kept n B e e₂ := (hk₁.store (.below p) (.inl hpB) _).ends _ _ _ _
      refine ⟨e₂.put (.below p) (some start), ?_,
        hk₂.put (.below p) (.inl hpB) (fun _ => by simp [e₂, Editor.store, Editor.put,
          Editor.uAddStk]) _, ?_,
        htop', rfl, rfl, rfl⟩
      · simp [Editor.moveIn, hob, e₁, e₂]
      · intro l
        by_cases hl : l = p
        · simp [e₁, e₂, hl, hpf.symm, eq_comm]
        · simp [e₁, e₂, Ne.symm hl, eq_comm]
    | cons s S =>
      let e₁ := ((e.store (.above start) (some p)).store (.below fini) (some s)).store (.above s)
        (some fini)
      let e₂ := e₁.store (.below p) (some start)
      have hk₁ : Kept n B e e₁ := (((Kept.refl e).store (.above start) trivial (some p)).store
        (.below fini)
        (.inl hfB) (some s)).store (.above s) trivial (some fini)
      have hk₂ : Kept n B e e₂ := hk₁.store (.below p) (.inl hpB) _
      refine ⟨e₂.put (.below p) (some start), ?_,
        hk₂.put (.below p) (.inl hpB) (fun _ => by simp [e₂, Editor.store, Editor.put,
          Editor.uAddStk]) _, ?_,
        htop', ?_, rfl, rfl⟩
      · simp [Editor.moveIn, hob, hn, e₁, e₂]
      · intro l
        by_cases hl : l = p
        · simp [e₁, e₂, hl, hpf.symm, eq_comm]
        · simp [e₁, e₂, Ne.symm hl, eq_comm]
      · change e.bottom = _
        rw [hbot]
        simp

theorem nodup_insert {P' S' : List Line} (hd : (P ++ R ++ S).Nodup) (h : P ++ S = P' ++ S') :
    (P' ++ R ++ S').Nodup := by
  rw [List.append_assoc, (List.perm_append_comm_assoc P' R S').nodup_iff, ← h]
  rw [List.append_assoc, (List.perm_append_comm_assoc P R S).nodup_iff] at hd
  exact hd

theorem Editor.Buf.bottom_eq_dest {P' S' : List Line} {p : Line} (hbuf : e.Buf (P ++ R ++ S))
    (hf : last R = some fini) (hcut : P ++ S = P' ++ [p] ++ S')
    (hbefore : S = [] → last P ≠ some p) : e.bottom = some p ↔ S' = [] := by
  have hd := nodup_insert hbuf.nodup hcut
  simp only [List.nodup_append, List.mem_append] at hd
  rcases List.eq_nil_or_concat' S with rfl | ⟨S, s, rfl⟩
  · rw [(hbuf.bottom_eq_fini hf).2 rfl]
    constructor
    · rintro ⟨⟩
      exact absurd rfl (hd.1.2.2 fini (by simp) fini (last_mem hf))
    · rintro rfl
      rw [List.append_nil, List.append_nil] at hcut
      rw [hcut] at hbefore
      exact absurd lastKey_concat (hbefore rfl)
  · have hbot : e.bottom = last (P' ++ [p] ++ S') := by
      rw [hbuf.bottom, ← hcut]
      simp
    rw [hbot]
    rcases List.eq_nil_or_concat' S' with rfl | ⟨S', s', rfl⟩
    · simp
    · rw [← List.append_assoc, last, lastKey_concat]
      simp only [Option.some.injEq, List.append_eq_nil_iff, List.cons_ne_nil, and_false, iff_false]
      intro hc
      exact hd.2.2 p (by simp) s' (by simp) hc.symm

/-- `m` behind `u_clr_stk`. -/
def Editor.mLines (start fini : Line) (dest : Option Line) (e : Editor) : Option Editor :=
  if some start = dest ∨ some fini = dest then some e
  else if e.top = some start ∧ e.bottom = some fini then some e
  else if e.top = some start ∧ dest = none then some e
  else do
    let oldTop := e.top
    let oldBottom := e.bottom
    let e ← e.moveOut start fini
    let e ← e.moveIn start fini dest oldTop oldBottom
    return { e with current := some start }

theorem Editor.m_eq {dest : Option Line} : e.m start fini dest = e.uClrStk.mLines start fini dest :=
  rfl

section

variable {P' S' : List Line}

theorem Editor.Buf.mLines (hbuf : e.Buf (P ++ R ++ S)) (hs : first R = some start)
    (hf : last R = some fini) (hcut : P ++ S = P' ++ S')
    (hbefore : S = [] → ∀ l, last P' = some l → last P ≠ some l) :
    ∃ e', e.mLines start fini (last P') = some e' ∧ Ran (P ++ R ++ S) (P' ++ R ++ S') e e' ∧
      e'.current = if P = [] ∧ P' = [] then e.current else some start := by
  have hd := hbuf.nodup
  simp only [List.nodup_append, List.mem_append] at hd
  have hsR := first_mem hs
  have hfR := last_mem hf
  have hPS : ∀ l, l ∈ P' ++ S' → l ∈ P ∨ l ∈ S := fun l hl => List.mem_append.1 (hcut ▸ hl)
  have hRPS : ∀ l ∈ R, l ∉ P' ++ S' := by
    intro l hl hc
    rcases hPS l hc with hc | hc
    · exact hd.1.2.2 l hc l hl rfl
    · exact hd.2.2 l (.inr hl) l hc rfl
  have hdest : ¬ (some start = last P' ∨ some fini = last P') := by
    rintro (h | h)
    · exact hRPS start hsR (List.mem_append_left S' (last_mem h.symm))
    · exact hRPS fini hfR (List.mem_append_left S' (last_mem h.symm))
  rw [Editor.mLines, if_neg hdest]
  by_cases hfront : P = [] ∧ P' = []
  · -- the lines are the first ones already
    obtain ⟨rfl, rfl⟩ := hfront
    obtain rfl : S = S' := hcut
    have htop : e.top = some start := (hbuf.top_eq_start hs).2 rfl
    refine ⟨e, ?_, hbuf.ran, rfl⟩
    split
    · rfl
    · exact if_pos ⟨htop, rfl⟩
  have hall : ¬ (e.top = some start ∧ e.bottom = some fini) := by
    rw [hbuf.top_eq_start hs, hbuf.bottom_eq_fini hf]
    rintro ⟨rfl, rfl⟩
    exact hfront ⟨rfl, (List.append_eq_nil_iff.1 hcut.symm).1⟩
  have htop : ¬ (e.top = some start ∧ last P' = none) := by
    rw [hbuf.top_eq_start hs, last_eq_none]
    exact hfront
  have hne : P ++ S ≠ [] := by
    rw [hbuf.top_eq_start hs, hbuf.bottom_eq_fini hf] at hall
    intro hnil
    exact hall (List.append_eq_nil_iff.1 hnil)
  rw [if_neg hall, if_neg htop]
  obtain ⟨e₁, hout, hk₁, hsame₁, ht₁, hb₁, hd₁, hf₁⟩ :=
    moveOut_spec (n := e.fresh) (B := P ++ R ++ S) hbuf hs hf hne fun l hl => by simp [hl]
  obtain ⟨hPR, hS⟩ := seg_append.1 hbuf.links
  obtain ⟨hP, hR⟩ := seg_append.1 hPR
  have hdPS : (P ++ S).Nodup :=
    List.nodup_append.2 ⟨hd.1.1, hd.2.1, fun a ha b hb => hd.2.2 a (.inl ha) b hb⟩
  have hPS₁ : Seg e₁.mem none (P ++ S) none := (hP.tie hS hdPS fun _ => rfl).same hsame₁
  have hR₁ : Seg e₁.mem (last P) R (first S) := by
    apply Seg.same _ hsame₁
    apply hR.tie_other
    · intro l hl hc
      exact hd.1.2.2 l (last_mem hc) l hl rfl
    · intro l hl hc
      exact hd.2.2 l (.inr hl) l (first_mem hc) rfl
  rw [hcut] at hPS₁ ht₁ hb₁ hne
  obtain ⟨hP', hS'⟩ := seg_append.1 hPS₁
  have hot : P' = [] → e.top = first S' := by
    rintro rfl
    have hPne : P ≠ [] := fun hnil => hfront ⟨hnil, rfl⟩
    obtain ⟨p, P, rfl⟩ := List.exists_cons_of_ne_nil hPne
    rw [hbuf.top, ← List.nil_append S', ← hcut]
    rfl
  have hob : P' ≠ [] → (e.bottom = last P' ↔ S' = []) := by
    intro hne'
    obtain ⟨P'', p, rfl⟩ := (List.eq_nil_or_concat' P').resolve_left hne'
    have hlp : last (P'' ++ [p]) = some p := lastKey_concat
    rw [hlp]
    exact hbuf.bottom_eq_dest hf hcut fun hnil => hbefore hnil p hlp
  obtain ⟨e₂, hin, hk₂, hsame₂, ht₂, hb₂, hd₂, hf₂⟩ := moveIn_spec start (e := e₁) (n := e.fresh)
    (B := P ++ R ++ S) hne (fun p hp => hP'.below_last hp) ht₁ hb₁ hot hob
    (fun hc => hRPS fini hfR (List.mem_append_left S' hc)) (fun l hl => by
      rcases hPS l (List.mem_append_left S' hl) with hl | hl <;> simp [hl]) (by simp [hfR])
  have hbuf₂ : e₂.Buf (P' ++ R ++ S') := by
    apply Editor.Buf.of_insert hP' hR₁ hS' (nodup_insert hbuf.nodup hcut) hs hf hsame₂
    · rw [ht₂]
      cases P' with
      | nil => simp [headKey_of_first hs]
      | cons p P' => rfl
    · rw [hb₂]
      simp [lastKey_of_last hf]
    · intro l hl
      rw [hf₂, hf₁]
      apply hbuf.lines
      simp only [List.mem_append] at hl hPS ⊢
      rcases hl with (hl | hl) | hl
      · exact (hPS l (.inl hl)).imp_left .inl
      · exact .inl (.inr hl)
      · exact (hPS l (.inr hl)).imp_left .inl
  have hran : Ran (P ++ R ++ S) (P' ++ R ++ S') e e₂ := by
    refine ⟨hk₁.trans hk₂, hbuf₂, ?_, .inl (hd₂.trans hd₁)⟩
    intro l hl
    simp only [List.mem_append] at hl hPS ⊢
    rcases hl with (hl | hl) | hl
    · exact .inl ((hPS l (.inl hl)).imp_left .inl)
    · exact .inl (.inl (.inr hl))
    · exact .inl ((hPS l (.inr hl)).imp_left .inl)
  refine ⟨_, ?_, hran.current (some start), (if_neg hfront).symm⟩
  simp only [hout, hin, Option.pure_def, Option.bind_eq_bind, Option.bind_some]

theorem Editor.Buf.m {dest : Option Line} (hbuf : e.Buf (P ++ R ++ S)) (hs : first R = some start)
    (hf : last R = some fini) (hdest : ∀ l, dest = some l → l ∈ P ++ S)
    (hbefore : ∀ l, dest = some l → last P ≠ some l) :
    ∃ e' B', e.m start fini dest = some e' ∧ Ran (P ++ R ++ S) B' e.uClrStk e' := by
  obtain ⟨P', S', hcut, rfl⟩ := exists_cut hdest
  obtain ⟨e', hrun, hran, -⟩ := hbuf.uClrStk.mLines hs hf hcut fun _ => hbefore
  exact ⟨e', _, hrun, hran⟩

theorem Editor.Buf.mLines_end {p : Line} (hbuf : e.Buf (P ++ [p] ++ R)) (hs : first R = some start)
    (hf : last R = some fini) : e.mLines start fini (some p) = none := by
  have hbuf' : e.Buf (P ++ [p] ++ R ++ []) := by rwa [List.append_nil]
  have htop : e.top ≠ some start := fun h => by simpa using (hbuf'.top_eq_start hs).1 h
  have hbot : e.bottom = some fini := (hbuf'.bottom_eq_fini hf).2 rfl
  have ha : e.mem (.above start) = some p :=
    (((seg_append.1 hbuf.links).2).above_first hs).trans lastKey_concat
  have hd := hbuf.nodup
  simp only [List.nodup_append] at hd
  have hsp : start ≠ p := (hd.2.2 p (by simp) start (first_mem hs)).symm
  have hfp : fini ≠ p := (hd.2.2 p (by simp) fini (last_mem hf)).symm
  simp [Editor.mLines, Editor.moveOut, Editor.moveIn, htop, hbot, ha, hsp, hfp]

def Editor.empty : Editor where
  mem := fun _ => none
  handle := fun _ => 0
  top := none
  bottom := none
  current := none
  uTop := none
  uBottom := none
  uCurrent := none
  uStk := []
  dStk := []
  oldDStk := []
  fresh := 0
  freed := []

theorem Editor.Buf.empty : Editor.empty.Buf [] :=
  ⟨.nil, trivial, rfl, rfl, by simp⟩

/-- `m`, in a global command (`gFlag`), which keeps the undo stack, or outside of one. -/
def Editor.mIn (gFlag : Bool) (start fini : Line) (dest : Option Line) (e : Editor) :
    Option Editor :=
  (if gFlag then e else e.uClrStk).mLines start fini dest

/-- `m` puts the lines behind the destination and the current line on one of them, if lines at the
end of the buffer are not to go behind the line before them, and the current line is on a line of
the range where there is nothing to do. -/
theorem mIn_iff (gFlag : Bool) (hbuf : e.Buf (P ++ R ++ S)) (hs : first R = some start)
    (hf : last R = some fini) (hcut : P ++ S = P' ++ S') :
    (∃ e', e.mIn gFlag start fini (last P') = some e' ∧ e'.Buf (P' ++ R ++ S') ∧
        ∃ l ∈ R, e'.current = some l) ↔
      ¬ (S = [] ∧ P ≠ [] ∧ last P' = last P) ∧
        (P = [] → P' = [] → ∃ l ∈ R, e.current = some l) := by
  obtain ⟨e₀, he₀, hbuf₀, hcur₀⟩ : ∃ e₀, (if gFlag then e else e.uClrStk) = e₀ ∧
      e₀.Buf (P ++ R ++ S) ∧ e₀.current = e.current := by
    cases gFlag with
    | true => exact ⟨e, rfl, hbuf, rfl⟩
    | false =>
      obtain ⟨_, _, heq⟩ := uClrStk_eq e
      exact ⟨e.uClrStk, rfl, hbuf.uClrStk, by rw [heq]⟩
  rw [Editor.mIn, he₀, ← hcur₀]
  by_cases hend : S = [] ∧ P ≠ [] ∧ last P' = last P
  · obtain ⟨rfl, hne, hlast⟩ := hend
    obtain ⟨P, p, rfl⟩ := (List.eq_nil_or_concat' P).resolve_left hne
    have hp : last (P ++ [p]) = some p := lastKey_concat
    rw [List.append_nil] at hbuf₀
    simp [hlast, hp, hbuf₀.mLines_end hs hf]
  · obtain ⟨e', hrun, hran, hcur⟩ := hbuf₀.mLines hs hf hcut fun hS l hl hP =>
      hend ⟨hS, by rintro rfl; simp at hP, hl.trans hP.symm⟩
    rw [hrun]
    constructor
    · rintro ⟨_, ⟨⟩, -, hon⟩
      refine ⟨hend, fun hP hP' => ?_⟩
      rwa [hcur, if_pos ⟨hP, hP'⟩] at hon
    · rintro ⟨-, hon⟩
      refine ⟨e', rfl, hran.buf, ?_⟩
      rw [hcur]
      split
      · rename_i hfront
        exact hon hfront.1 hfront.2
      · exact ⟨start, first_mem hs, rfl⟩

theorem mIn_third :
    ∃ e', (Editor.empty.a none [7, 8, 9]).mIn false 2 2 none = some e' ∧ e'.Buf [2, 0, 1] ∧
      ∃ l ∈ [2], e'.current = some l :=
  (@mIn_iff _ [0, 1] [2] [] 2 2 [] [0, 1] false
    ⟨by decide, ⟨⟨rfl, rfl⟩, ⟨rfl, rfl⟩, ⟨rfl, rfl⟩, trivial⟩, rfl, rfl, by decide⟩ rfl rfl rfl).2
    ⟨by simp [last, lastKey], by simp⟩

theorem mIn_last_lost :
    (Editor.empty.a none [7, 8, 9]).Buf [0, 1, 2] ∧
      (Editor.empty.a none [7, 8, 9]).mIn false 2 2 (some 1) = none :=
  ⟨⟨by decide, ⟨⟨rfl, rfl⟩, ⟨rfl, rfl⟩, ⟨rfl, rfl⟩, trivial⟩, rfl, rfl, by decide⟩, rfl⟩

end

end Bsdi.Ed
