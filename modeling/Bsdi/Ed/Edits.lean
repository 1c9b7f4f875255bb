import Bsdi.Ed.Logged

/-!
# What the commands do to the buffer

For each command the lines of the buffer behind it, and that it keeps what undo needs.
-/

namespace Bsdi.Ed

open Bsdi.Lib

/-- The buffer has the given lines. -/
structure Editor.Buf (e : Editor) (B : List Line) : Prop where
  nodup : B.Nodup
  links : Seg e.mem none B none
  top : e.top = first B
  bottom : e.bottom = last B
  lines : ∀ l ∈ B, l < e.fresh

variable {e e' : Editor} {n : Nat} {A B N P R S : List Line} {start fini : Line}

theorem Editor.Buf.delete (hbuf : e.Buf (P ++ R ++ S)) (hs : first R = some start)
    (hf : last R = some fini) (hB : ∀ l ∈ P, l ∈ B ∨ n ≤ l) :
    ∃ e', e.delete start fini = some e' ∧ Kept n B e e' ∧ e'.Buf (P ++ S) ∧
      e'.current = headKey some (last P) S ∧ e'.dStk = (start, fini) :: e.dStk ∧
      e'.fresh = e.fresh ∧ SameLinks (tie e.mem (last P) (first S)) e'.mem := by
  obtain ⟨hnd, hlinks, htop, hbot, hlines⟩ := hbuf
  have hPR := seg_append.1 hlinks
  have hP := (seg_append.1 hPR.1).1
  have hR := (seg_append.1 hPR.1).2
  have ha : e.mem (.above start) = last P := hR.above_first hs
  have hb : e.mem (.below fini) = first S := hR.below_last hf
  have hsR := first_mem hs
  have hfR := last_mem hf
  have hdisj := hnd
  simp only [List.nodup_append, List.mem_append] at hdisj
  -- The links and the ends, before the marks are looked at.
  have hmain : ∃ e₁ : Editor, e.delete start fini = some (e₁.kuChk start fini none) ∧
    Kept n B e e₁ ∧
      SameLinks (tie e.mem (last P) (first S)) e₁.mem ∧ e₁.top = first (P ++ S) ∧
      e₁.bottom = last (P ++ S) ∧ e₁.current = headKey some (last P) S ∧
      e₁.dStk = (start, fini) :: e.dStk ∧ e₁.fresh = e.fresh := by
    have hfirst : ∀ n, headKey some n R = some start := fun n => headKey_of_first hs
    have hlast : ∀ n, lastKey some n R = some fini := fun n => lastKey_of_last hf
    have hk : Kept n B e { e with dStk := (start, fini) :: e.dStk } :=
      (Kept.refl e).ends e.top e.bottom e.current _
    have hstart : ∀ s ∈ S, start ≠ s := fun s hsS => hdisj.2.2 start (.inr hsR) s hsS
    have hbo : S ≠ [] → e.bottom ≠ some fini := by
      intro hS hc
      obtain ⟨S', s, rfl⟩ := List.eq_nil_or_concat' S |>.resolve_left hS
      rw [hbot, last, ← List.append_assoc, lastKey_concat] at hc
      exact hdisj.2.2 fini (.inr hfR) s (by simp) (by simpa using hc.symm)
    rcases List.eq_nil_or_concat' P with rfl | ⟨P', p, rfl⟩
    · have ht : e.top = some start := by rw [htop]; simp [hfirst]
      cases S with
      | nil =>
        have hbo : e.bottom = some fini := by rw [hbot]; simp [hlast]
        refine ⟨_, by simp [Editor.delete, ht, hbo, ha, hb], hk.ends _ _ _ _, ?_, rfl, rfl, rfl,
          rfl,
          rfl⟩
        intro l
        simp
      | cons s S =>
        have hss : start ≠ s := hstart s (by simp)
        have hbo := hbo (by simp)
        let e₀ : Editor := { e with top := some s, dStk := (start, fini) :: e.dStk }
        refine ⟨{ (e₀.store (.above s) none).store (.above s) none with current := some s }, ?_,
          ?_, ?_, rfl, ?_, rfl, rfl, rfl⟩
        · simp [Editor.delete, ht, hbo, ha, hb, e₀, Editor.store, Editor.put, Editor.uAddStk, hss]
        · have hk₀ : Kept n B e e₀ := hk.ends _ _ _ _
          exact ((hk₀.store (.above s) trivial none).store (.above s) trivial none).ends _ _ _ _
        · intro l
          by_cases hl : s = l
          · simp [e₀, hl]
          · simp [e₀, hl, Ne.symm hl]
        · change e.bottom = _
          rw [hbot]
          simp
    · have hpR : ∀ r ∈ R, p ≠ r := fun r hr => hdisj.1.2.2 p (by simp) r hr
      have hpf := hpR fini hfR
      have hlp : last (P' ++ [p]) = some p := lastKey_concat
      have ht : e.top ≠ some start := by
        rw [htop, List.append_assoc]
        intro hc
        rcases headKey_eq_some.1 hc with ⟨L, hL⟩ | ⟨hL, -⟩
        · cases P' with
          | nil =>
            simp only [List.nil_append, List.cons_append, List.cons.injEq] at hL
            exact hpR start hsR hL.1
          | cons q P' =>
            simp only [List.cons_append, List.cons.injEq] at hL
            exact hdisj.1.2.2 start (by simp [hL.1]) start hsR rfl
        · simp at hL
      have htop' : e.top = first (P' ++ [p] ++ S) := by
        rw [htop]
        cases P' <;> rfl
      rw [hlp] at ha
      let e₀ : Editor := { e with dStk := (start, fini) :: e.dStk }
      have hkp : ∀ v, Kept n B e (e₀.store (.below p) v) := fun v =>
        hk.store (.below p) (hB p (by simp)) v
      cases S with
      | nil =>
        have hbo : e.bottom = some fini := by rw [hbot]; simp [hlast]
        refine ⟨{ e₀.store (.below p) none with bottom := some p, current := some p }, ?_,
          (hkp none).ends _ _ _ _, ?_, htop', ?_, ?_, rfl, rfl⟩
        · simp [Editor.delete, ht, hbo, ha, hb, e₀, Editor.store, Editor.put, Editor.uAddStk]
        · intro l
          simp [e₀, eq_comm]
        · simp
        · simp
      | cons s S =>
        have hbo := hbo (by simp)
        refine ⟨{ (e₀.store (.below p) (some s)).store (.above s) (some p) with current := some s },
          ?_,
          ((hkp (some s)).store (.above s) trivial (some p)).ends _ _ _ _, ?_, htop', ?_, rfl, rfl,
            rfl⟩
        · simp [Editor.delete, ht, hbo, ha, hb, e₀, Editor.store, Editor.put, Editor.uAddStk,
          hpf.symm]
        · intro l
          simp [e₀, eq_comm]
        · show e.bottom = _
          rw [hbot]
          simp
  obtain ⟨e₁, hrun, hk, hsame, ht, hbo, hc, hd, hfr⟩ := hmain
  have hm := Marked.kuChk e₁ start fini none
  have hlinks' := hsame.trans hm.links
  refine ⟨_, hrun, hk.marked hm, ⟨?_, ?_, ?_, ?_, ?_⟩, ?_, ?_, ?_, hlinks'⟩
  · simp only [List.nodup_append]
    exact ⟨hdisj.1.1, hdisj.2.1, fun a ha b hb => hdisj.2.2 a (.inl ha) b hb⟩
  · apply Seg.same _ hlinks'
    apply hP.tie hPR.2 _ (fun _ => rfl)
    simp only [List.nodup_append]
    exact ⟨hdisj.1.1, hdisj.2.1, fun a ha b hb => hdisj.2.2 a (.inl ha) b hb⟩
  · rw [hm.eq]; exact ht
  · rw [hm.eq]; exact hbo
  · rw [hm.eq]
    intro l hl
    rw [hfr]
    apply hlines
    simp only [List.mem_append] at hl ⊢
    tauto
  · rw [hm.eq]; exact hc
  · rw [hm.eq]; exact hd
  · rw [hm.eq]; exact hfr

structure Grown (n : Nat) (B : List Line) (x : Option Line) (P N : List Line) (e e' : Editor) :
    Prop where
  kept : Kept n B e e'
  links : Seg e'.mem none (P ++ N) (if N = [] then x else none)
  frame : ∀ c : Cell, c.Old e.fresh → (∀ a ∈ P, c ≠ .below a) → e'.mem c = e.mem c
  new : N = List.range' e.fresh N.length
  fresh : e'.fresh = e.fresh + N.length
  bottom : e'.bottom = e.bottom
  dStk : e'.dStk = e.dStk

def follow (mem : Cell → Option Line) (p v : Option Line) : Cell → Option Line :=
  match p with
  | none => mem
  | some p => Function.update mem (.below p) v

variable {x : Option Line}

theorem Cell.Old.mono {m : Nat} {c : Cell} (hc : c.Old n) (hm : n ≤ m) : c.Old m := by
  cases c with
  | above l => exact Nat.lt_of_lt_of_le hc hm
  | below l => exact Nat.lt_of_lt_of_le hc hm
  | mark i => trivial

namespace Grown

theorem refl (hP : Seg e.mem none P x) : Grown n B x P [] e e :=
  ⟨.refl e, by simpa using hP, fun _ _ _ => rfl, rfl, rfl, rfl, rfl⟩

theorem step (h : Nat) (hP : Seg e.mem none P x) (hd : P.Nodup) (hlt : ∀ l ∈ P, l < e.fresh)
    (hk : Kept n B e e')
    (hmem : e'.mem = follow (e.newLine h (last P) none).mem (last P) (some e.fresh))
    (hfr : e'.fresh = e.fresh + 1) (hbo : e'.bottom = e.bottom) (hds : e'.dStk = e.dStk) :
    Grown n B x P [e.fresh] e e' := by
  refine ⟨hk, ?_, ?_, rfl, hfr, hbo, hds⟩
  · rw [hmem, if_neg (by simp)]
    have hne : ∀ k ∈ P, k ≠ e.fresh := fun k hk => Nat.ne_of_lt (hlt k hk)
    refine seg_append.2 ⟨hP.retie_last hd ?_ ?_, ⟨?_, ?_⟩, trivial⟩
    · intro k hk
      cases last P <;> simp [follow, Editor.newLine, hne k hk]
    · intro k hk
      cases last P <;> simp [follow, Editor.newLine, Function.update_apply, hne k hk, eq_comm]
    · change _ = last P
      cases last P <;> simp [follow, Editor.newLine]
    · cases hlp : last P with
      | none => simp [follow, Editor.newLine]
      | some p => simp [follow, Editor.newLine, (hne p (last_mem hlp)).symm]
  · intro c hc hne
    rw [hmem]
    cases hlp : last P with
    | none => exact newLine_mem_old (Nat.le_refl _) hc
    | some p =>
      rw [follow, Function.update_of_ne (hne p (last_mem hlp))]
      exact newLine_mem_old (Nat.le_refl _) hc

theorem trans {e₁ e₂ : Editor} {N' : List Line} (h : Grown n B x P N e e₁) (hN : N ≠ [])
    (h' : Grown n B none (P ++ N) N' e₁ e₂) : Grown n B x P (N ++ N') e e₂ where
  kept := h.kept.trans h'.kept
  links := by simpa [hN] using h'.links
  frame c hc hne := by
    rw [h'.frame c, h.frame c hc hne]
    · exact hc.mono (by rw [h.fresh]; omega)
    · intro a ha
      rcases List.mem_append.1 ha with ha | ha
      · exact hne a ha
      · rintro rfl
        rw [h.new] at ha
        exact absurd hc (Nat.not_lt.2 (List.mem_range'_1.1 ha).1)
  new := by
    rw [List.length_append, ← List.range'_append_1, ← h.new, ← h.fresh, ← h'.new]
  fresh := by rw [h'.fresh, h.fresh, List.length_append, Nat.add_assoc]
  bottom := h'.bottom.trans h.bottom
  dStk := h'.dStk.trans h.dStk

theorem fresh_le (hg : Grown n B x P N e e') {l : Line} (hl : l ∈ N) : e.fresh ≤ l ∧ l < e'.fresh :=
    by
  rw [hg.new] at hl
  rw [hg.fresh]
  exact List.mem_range'_1.1 hl

theorem nodup (hg : Grown n B x P N e e') (hd : (P ++ S).Nodup) (hlt : ∀ l ∈ P ++ S, l < e.fresh) :
    (P ++ N ++ S).Nodup := by
  have hN : N.Nodup := by
    rw [hg.new]
    exact List.nodup_range'
  have hne : ∀ a ∈ N, ∀ b ∈ P ++ S, a ≠ b := by
    rintro a ha _ hb rfl
    exact Nat.not_lt.2 (hg.fresh_le ha).1 (hlt a hb)
  simp only [List.nodup_append, List.mem_append] at hd hne ⊢
  refine ⟨⟨hd.1, hN, fun a ha b hb => (hne b hb a (.inl ha)).symm⟩, hd.2.1, ?_⟩
  rintro a (ha | ha) b hb
  · exact hd.2.2 a ha b hb
  · exact hne a ha b (.inr hb)

theorem rest (hg : Grown n B x P N e e') (hd : (P ++ S).Nodup) (hlt : ∀ l ∈ S, l < e.fresh)
    {p q : Option Line} (hS : Seg e.mem p S q) : Seg e'.mem p S q := by
  apply hS.congr
  intro l hl
  refine ⟨hg.frame _ (hlt l hl) (by simp), hg.frame _ (hlt l hl) ?_⟩
  intro a ha heq
  cases heq
  exact (List.nodup_append.1 hd).2.2 l ha l hl rfl

theorem next {l : Line} (hg : Grown n B x P [l] e e') (hd : P.Nodup) (hlt : ∀ k ∈ P, k < e.fresh)
    (hn : n ≤ e.fresh) (hB : ∀ k ∈ P, k ∈ B ∨ n ≤ k) :
    Seg e'.mem none (P ++ [l]) none ∧ (P ++ [l]).Nodup ∧ (∀ k ∈ P ++ [l], k < e'.fresh) ∧
      n ≤ e'.fresh ∧ (∀ k ∈ P ++ [l], k ∈ B ∨ n ≤ k) ∧ n ≤ l := by
  have hl := hg.fresh_le (List.mem_singleton_self l)
  have hnd := hg.nodup (S := []) (by simpa using hd) (by simpa using hlt)
  refine ⟨?_, by simpa using hnd, ?_, Nat.le_trans hn hg.kept.fresh, ?_, Nat.le_trans hn hl.1⟩
  · simpa using hg.links
  · intro k hk
    rcases List.mem_append.1 hk with hk | hk
    · exact Nat.lt_of_lt_of_le (hlt k hk) hg.kept.fresh
    · obtain rfl : k = l := by simpa using hk
      exact hl.2
  · intro k hk
    rcases List.mem_append.1 hk with hk | hk
    · exact hB k hk
    · obtain rfl : k = l := by simpa using hk
      exact .inr (Nat.le_trans hn hl.1)

end Grown

def ends (N : List Line) : Option (Line × Line) := (first N).bind fun tb => (last N).map fun te =>
    (tb, te)

theorem ends_eq (h : N ≠ []) :
    ∃ tb te, first N = some tb ∧ last N = some te ∧ ends N = some (tb, te) := by
  cases hf : first N with
  | none => exact absurd (first_eq_none.1 hf) h
  | some tb =>
    cases hl : last N with
    | none => exact absurd (last_eq_none.1 hl) h
    | some te => exact ⟨tb, te, rfl, rfl, by simp [ends, hf, hl]⟩

theorem copyLoop_grown (hs : List Nat) (hN : Seg e.mem none N x) (hd : N.Nodup)
    (hlt : ∀ l ∈ N, l < e.fresh) (hn : n ≤ e.fresh) (hB : ∀ l ∈ N, n ≤ l) :
    ∃ N' e', e.copyLoop hs (ends N) = (ends (N ++ N'), e') ∧ Grown n B x N N' e e' ∧
      e'.top = e.top ∧ (hs ≠ [] → N' ≠ []) := by
  induction hs generalizing e N x with
  | nil => exact ⟨[], e, by simp [Editor.copyLoop], .refl hN, rfl, by simp⟩
  | cons h hs ih =>
    obtain ⟨e₁, hrun, hg, ht⟩ : ∃ e₁ : Editor, e.copyLoop (h :: hs) (ends N) =
        e₁.copyLoop hs (ends (N ++ [e.fresh])) ∧ Grown n B x N [e.fresh] e e₁ ∧ e₁.top = e.top := by
      have hk := (Kept.refl e).newLine hn (B := B) h (last N) none
      rcases List.eq_nil_or_concat' N with rfl | ⟨N', te, rfl⟩
      · exact ⟨e.newLine h none none, rfl, .step h hN hd hlt hk rfl rfl rfl rfl, rfl⟩
      · obtain ⟨tb, te', hfirst, hlast, hends⟩ := ends_eq (N := N' ++ [te]) (by simp)
        obtain rfl : te = te' := by simpa using hlast
        have hends' : ends (N' ++ [te] ++ [e.fresh]) = some (tb, e.fresh) := by
          have hf : first (N' ++ [te] ++ [e.fresh]) = some tb := by
            rw [first, headKey_append]
            exact headKey_of_first hfirst
          simp only [ends, hf, Option.bind_some]
          rw [last, lastKey_concat]
          rfl
        refine ⟨(e.newLine h (some te) none).put (.below te) (some e.fresh),
          by rw [hends, hends']; rfl,
          .step h hN hd hlt ?_ (by rw [hlast]; rfl) rfl rfl rfl, rfl⟩
        rw [hlast] at hk
        have hte := hB te (by simp)
        exact hk.put (.below te) (.inr hte) (fun hold => absurd hold (Nat.not_lt.2 hte)) _
    obtain ⟨hseg, hd', hlt', hn', -, hl⟩ := hg.next hd hlt hn fun l hl => .inr (hB l hl)
    have hB' : ∀ l ∈ N ++ [e.fresh], n ≤ l := by
      intro l hm
      rcases List.mem_append.1 hm with hm | hm
      · exact hB l hm
      · obtain rfl : l = e.fresh := by simpa using hm
        exact hl
    obtain ⟨N', e₂, hrun₂, hg₂, ht₂, -⟩ := ih hseg hd' hlt' hn' hB'
    rw [List.append_assoc] at hrun₂
    exact ⟨e.fresh :: N', e₂, by rw [hrun, hrun₂]; rfl, hg.trans (by simp) hg₂, ht₂.trans ht,
      by simp⟩

theorem inputLoop_grown (hs : List Nat) {y : Option Line} (hP : Seg e.mem none P x) (hd : P.Nodup)
    (hlt : ∀ l ∈ P, l < e.fresh) (htop : e.top = headKey some y P) (hn : n ≤ e.fresh)
    (hB : ∀ l ∈ P, l ∈ B ∨ n ≤ l)
    (hlog : ∀ a, last P = some a → n ≤ a ∨ Cell.below a ∈ e.uStk.map Prod.fst) :
    ∃ N e', e.inputLoop hs (last P) = (last (P ++ N), e') ∧ Grown n B x P N e e' ∧
      e'.top = headKey some y (P ++ N) ∧ e'.uStk = e.uStk := by
  induction hs generalizing e P x with
  | nil => exact ⟨[], e, by simp [Editor.inputLoop], .refl hP, by simpa using htop, rfl⟩
  | cons h hs ih =>
    -- The buffer behind one turn of the loop.
    obtain ⟨e₁, hrun, hg, ht, hus⟩ : ∃ e₁ : Editor,
        e.inputLoop (h :: hs) (last P) = e₁.inputLoop hs (some e.fresh) ∧
          Grown n B x P [e.fresh] e e₁ ∧
        e₁.top = headKey some y (P ++ [e.fresh]) ∧ e₁.uStk = e.uStk := by
      have hk := (Kept.refl e).newLine hn (B := B) h (last P) none
      rcases List.eq_nil_or_concat' P with rfl | ⟨P', p, rfl⟩
      · exact ⟨{ e.newLine h none none with top := some e.fresh }, rfl,
          .step h hP hd hlt (hk.ends _ _ _ _) rfl rfl rfl rfl, rfl, rfl⟩
      · have hlp : last (P' ++ [p]) = some p := lastKey_concat
        refine ⟨(e.newLine h (some p) none).put (.below p) (some e.fresh), by rw [hlp]; rfl,
          .step h hP hd hlt ?_ (by rw [hlp]; rfl) rfl rfl rfl, ?_, rfl⟩
        · rw [hlp] at hk
          apply hk.put (.below p) (hB p (by simp))
          intro hold
          exact (hlog p hlp).resolve_left (Nat.not_le.2 hold)
        · change e.top = _
          rw [htop]
          cases P' <;> rfl
    obtain ⟨hseg, hd', hlt', hn', hB', hl⟩ := hg.next hd hlt hn hB
    have hlast : last (P ++ [e.fresh]) = some e.fresh := lastKey_concat
    obtain ⟨N, e₂, hrun₂, hg₂, ht₂, hus₂⟩ := ih hseg hd' hlt' ht hn' hB' fun a ha => .inl <| by
      rw [hlast] at ha
      cases ha
      exact hl
    rw [List.append_assoc] at hrun₂ ht₂
    exact ⟨e.fresh :: N, e₂, by rw [hrun, ← hlast, hrun₂]; rfl, hg.trans (by simp) hg₂, ht₂,
      hus₂.trans hus⟩

theorem Editor.Buf.of_tie {mem : Cell → Option Line} {y : Option Line} (hA : Seg mem none A x)
    (hS : Seg mem y S none) (hd : (A ++ S).Nodup)
    (hsame : SameLinks (tie mem (last A) (first S)) e.mem) (ht : e.top = first (A ++ S))
    (hbo : e.bottom = last (A ++ S)) (hlt : ∀ l ∈ A ++ S, l < e.fresh) : e.Buf (A ++ S) :=
  ⟨hd, (hA.tie hS hd fun _ => rfl).same hsame, ht, hbo, hlt⟩

theorem inputStart_spec (n : Nat) (B : List Line) (hP : Seg e.mem none P x)
    (htop : e.top = headKey some x P) :
    ∃ e₁, e.inputStart (last P) = (x, e₁) ∧ Kept n B e e₁ ∧ e₁.mem = e.mem ∧ e₁.top = e.top ∧
      e₁.bottom = e.bottom ∧ e₁.dStk = e.dStk ∧ e₁.fresh = e.fresh ∧ ∀ a, last P = some a →
      Cell.below a ∈ e₁.uStk.map Prod.fst := by
  cases hlp : last P with
  | none =>
    obtain rfl := last_eq_none.1 hlp
    obtain rfl : e.top = x := htop
    rw [Editor.inputStart]
    cases ht : e.top with
    | none => exact ⟨e, rfl, .refl e, rfl, ht, rfl, rfl, rfl, by simp⟩
    | some t => exact ⟨_, rfl, (Kept.refl e).uAddStk (.above t), rfl, ht, rfl, rfl, rfl, by simp⟩
  | some p =>
    refine ⟨e.uAddStk (.below p), ?_, (Kept.refl e).uAddStk _, rfl, rfl, rfl, rfl, rfl, ?_⟩
    · rw [Editor.inputStart, hP.below_last hlp]
    · rintro a ⟨⟩
      simp [Editor.uAddStk]

theorem inputEnd_spec {y : Option Line} (hA : Seg e.mem none A x) (hS : Seg e.mem y S none)
    (hd : (A ++ S).Nodup) (hx : S = [] → x = none) (ht : e.top = headKey some (first S) A)
    (hbo : S ≠ [] → e.bottom = last S) (hlt : ∀ l ∈ A ++ S, l < e.fresh) (hy : A = [] → y = none)
    (hB : ∀ l ∈ A, l ∈ B ∨ n ≤ l)
    (hlog : ∀ a, last A = some a → n ≤ a ∨ Cell.below a ∈ e.uStk.map Prod.fst) :
    Kept n B e (e.inputEnd (first S) (last A)) ∧ (e.inputEnd (first S) (last A)).Buf (A ++ S) ∧
      (e.inputEnd (first S) (last A)).dStk = e.dStk := by
  have hk := (Kept.refl (n := n) (B := B) e).ends e.top e.bottom
    (if last A = none then e.top else last A) e.dStk
  cases S with
  | nil =>
    refine ⟨hk.ends _ _ _ _, ⟨hd, ?_, ?_, ?_, hlt⟩, rfl⟩
    · rw [hx rfl] at hA
      simpa [Editor.inputEnd] using hA
    · simpa [Editor.inputEnd] using ht
    · simp [Editor.inputEnd]
  | cons s S =>
    cases hla : last A with
    | none =>
      obtain rfl := last_eq_none.1 hla
      rw [hla] at hk
      refine ⟨hk.ends _ _ _ _, ⟨hd, ?_, ht, hbo (by simp), hlt⟩, rfl⟩
      rw [hy rfl] at hS
      exact hS
    | some l =>
      rw [hla] at hk
      refine ⟨?_, .of_tie hA hS hd ?_ ?_ ?_ hlt, rfl⟩
      · apply Kept.store _ (.above s) trivial
        apply hk.put (.below l) (hB l (last_mem hla))
        intro hold
        exact (hlog l hla).resolve_left (Nat.not_le.2 hold)
      · intro k
        simp [hla, Editor.inputEnd, eq_comm]
      · change e.top = _
        rw [ht]
        simp
      · change e.bottom = _
        rw [hbo (by simp)]
        simp

theorem Editor.Buf.inputLines (hbuf : e.Buf (P ++ S)) (hs : List Nat) (hn : n ≤ e.fresh)
    (hB : ∀ l ∈ P, l ∈ B ∨ n ≤ l) :
    ∃ N, (∀ l ∈ N, e.fresh ≤ l) ∧ Kept n B e (e.inputLines (last P) hs) ∧
      (e.inputLines (last P) hs).Buf (P ++ N ++ S) ∧ (e.inputLines (last P) hs).dStk = e.dStk := by
  obtain ⟨hnd, hlinks, htop, hbot, hlines⟩ := hbuf
  obtain ⟨hP, hS⟩ := seg_append.1 hlinks
  have htop' : e.top = headKey some (first S) P := by rw [htop]; simp
  obtain ⟨e₁, hstart, hk₁, hm₁, ht₁, hb₁, hd₁, hf₁, hlog⟩ := inputStart_spec n B hP htop'
  rw [← hm₁] at hP hS
  rw [← hf₁] at hlines hn
  obtain ⟨N, e₂, hloop, hg, ht₂, hus⟩ := inputLoop_grown hs hP (List.nodup_append.1 hnd).1
    (fun l hl => hlines l (List.mem_append_left S hl)) (ht₁.trans htop') hn hB fun a ha =>
      .inr (hlog a ha)
  have hnew : ∀ l ∈ N, n ≤ l := fun l hl => Nat.le_trans hn (hg.fresh_le hl).1
  have hS₂ := hg.rest hnd (fun l hl => hlines l (List.mem_append_right P hl)) hS
  have hlines₂ : ∀ l ∈ P ++ N ++ S, l < e₂.fresh := by
    intro l hl
    simp only [List.mem_append] at hl hlines
    rcases hl with (hl | hl) | hl
    · exact Nat.lt_of_lt_of_le (hlines l (.inl hl)) hg.kept.fresh
    · exact (hg.fresh_le hl).2
    · exact Nat.lt_of_lt_of_le (hlines l (.inr hl)) hg.kept.fresh
  have hbot₂ : S ≠ [] → e₂.bottom = last S := by
    intro hne
    obtain ⟨S', s, rfl⟩ := (List.eq_nil_or_concat' S).resolve_left hne
    rw [hg.bottom, hb₁, hbot]
    simp
  have hB₂ : ∀ l ∈ P ++ N, l ∈ B ∨ n ≤ l := by
    intro l hl
    rcases List.mem_append.1 hl with hl | hl
    · exact hB l hl
    · exact .inr (hnew l hl)
  have hlog₂ : ∀ a, last (P ++ N) = some a → n ≤ a ∨ Cell.below a ∈ e₂.uStk.map Prod.fst := by
    intro a ha
    rcases List.eq_nil_or_concat' N with rfl | ⟨N', l, rfl⟩
    · rw [hus]
      exact .inr (hlog a (by simpa using ha))
    · rw [← List.append_assoc, last, lastKey_concat] at ha
      cases ha
      exact .inl (hnew a (by simp))
  have hx : S = [] → (if N = [] then first S else none) = none := by
    rintro rfl
    simp
  have hy : P ++ N = [] → last P = none := by
    intro hnil
    rw [(List.append_eq_nil_iff.1 hnil).1]
    rfl
  obtain ⟨hk₂, hbuf₂, hds₂⟩ :=
    inputEnd_spec hg.links hS₂ (hg.nodup hnd hlines) hx ht₂ hbot₂ hlines₂ hy hB₂ hlog₂
  have hrun : e.inputLines (last P) hs = e₂.inputEnd (first S) (last (P ++ N)) := by
    rw [Editor.inputLines, hstart]
    simp only [hloop]
  rw [hrun]
  refine ⟨N, fun l hl => ?_, (hk₁.trans hg.kept).trans hk₂, hbuf₂, hds₂.trans (hg.dStk.trans hd₁)⟩
  rw [← hf₁]
  exact (hg.fresh_le hl).1

end Bsdi.Ed
