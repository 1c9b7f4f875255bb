import Bsdi.Ed.Ran

/-!
# Substitution

`s` replaces lines by new ones. When it replaces two lines in a row, the entry of the undo stack for
the link between them is used again: what it would bring back is a link from an old line to a new one.
-/

namespace Bsdi.Ed

open Bsdi.Lib

abbrev topCell (e : Editor) : Option Cell := e.uStk.head?.map Prod.fst

variable {e e' : Editor} {n : Nat} {B P Q R S : List Line} {x : Option Line} {cur fini : Line}

theorem pieceLoop_grown (cur : Line) (reuse : Bool) (hs : List Nat) {y : Option Line}
    (hP : Seg e.mem none P x) (hd : P.Nodup) (hlt : ∀ l ∈ P, l < e.fresh)
    (htop : e.top = headKey some y P) (hn : n ≤ e.fresh) (hB : ∀ l ∈ P, l ∈ B ∨ n ≤ l)
    (hnew : topCell e = some (.above cur) → ∀ p, last P = some p → n ≤ p)
    (hflag : reuse = true → topCell e = some (.above cur)) :
    ∃ N reuse' e', e.pieceLoop cur hs (last P) reuse = (last (P ++ N), reuse', e') ∧
      Grown n B x P N e e' ∧ e'.top = headKey some y (P ++ N) ∧
      (reuse' = true → topCell e' = some (.above cur)) ∧ (hs ≠ [] → N ≠ []) := by
  induction hs generalizing e P x reuse with
  | nil => exact ⟨[], reuse, e, by simp [Editor.pieceLoop], .refl hP, by simpa using htop, hflag,
    by simp⟩
  | cons h hs ih =>
    obtain ⟨reuse₁, e₁, hrun, hg, ht, hflag₁⟩ : ∃ reuse₁ e₁,
        e.pieceLoop cur (h :: hs) (last P) reuse = e₁.pieceLoop cur hs (some e.fresh) reuse₁ ∧
        Grown n B x P [e.fresh] e e₁ ∧ e₁.top = headKey some y (P ++ [e.fresh]) ∧
        (reuse₁ = true → topCell e₁ = some (.above cur)) := by
      have hk := (Kept.refl e).newLine hn (B := B) h (last P) none
      rcases List.eq_nil_or_concat' P with rfl | ⟨P', p, rfl⟩
      · exact ⟨reuse, { e.newLine h none none with top := some e.fresh }, rfl,
          .step h hP hd hlt (hk.ends _ _ _ _) rfl rfl rfl rfl, rfl, hflag⟩
      · have hlp : last (P' ++ [p]) = some p := lastKey_concat
        rw [hlp] at hk
        have ht : e.top = headKey some y (P' ++ [p] ++ [e.fresh]) := by
          rw [htop]
          cases P' <;> rfl
        by_cases htc : topCell e = some (.above cur)
        · -- The line before is new, and its link need not be logged.
          have hp := hnew htc p hlp
          refine ⟨true, (e.newLine h (some p) none).put (.below p) (some e.fresh), ?_,
            .step h hP hd hlt ?_ (by rw [hlp]; rfl) rfl rfl rfl, ht, fun _ => htc⟩
          · rw [hlp, Editor.pieceLoop]
            exact if_pos htc
          · exact hk.put (.below p) (.inr hp) (fun hold => absurd hold (Nat.not_lt.2 hp)) _
        · refine ⟨false, (e.newLine h (some p) none).store (.below p) (some e.fresh), ?_,
            .step h hP hd hlt ?_ (by rw [hlp]; rfl) rfl rfl rfl, ht, by simp⟩
          · rw [hlp, Editor.pieceLoop]
            exact if_neg htc
          · exact hk.store (.below p) (hB p (by simp)) _
    obtain ⟨hseg, hd', hlt', hn', hB', hl⟩ := hg.next hd hlt hn hB
    have hlast : last (P ++ [e.fresh]) = some e.fresh := lastKey_concat
    obtain ⟨N, reuse₂, e₂, hrun₂, hg₂, ht₂, hflag₂, -⟩ := ih reuse₁ hseg hd' hlt' ht hn' hB'
      (fun _ p hp => by
        rw [hlast] at hp
        cases hp
        exact hl) hflag₁
    rw [List.append_assoc] at hrun₂ ht₂
    exact ⟨e.fresh :: N, reuse₂, e₂, by rw [hrun, ← hlast, hrun₂]; rfl, hg.trans (by simp) hg₂, ht₂,
      hflag₂, by simp⟩

theorem pieceLoop_flag {h p : Nat} {hs : List Nat} {reuse : Bool} :
    e.pieceLoop cur (h :: hs) (some p) reuse = e.pieceLoop cur (h :: hs) (some p) false := rfl

theorem logAbove_spec (reuse : Bool) (k cur : Line)
    (hflag : reuse = true → topCell e = some (.above cur) ∨ ∃ i, topCell e = some (.mark i)) :
    ∃ e', e.logAbove reuse k = some e' ∧ Kept n B e e' ∧ topCell e' = some (.above k) ∧
      (∀ l ≠ cur, e'.mem (.above l) = e.mem (.above l)) ∧
      (∀ l, e'.mem (.below l) = e.mem (.below l)) ∧ e'.top = e.top ∧ e'.bottom = e.bottom ∧
      e'.dStk = e.dStk ∧ e'.fresh = e.fresh := by
  cases reuse with
  | false =>
    exact ⟨e.uAddStk (.above k), rfl, (Kept.refl e).uAddStk _, rfl, fun _ _ => rfl, fun _ =>
      rfl, rfl, rfl, rfl, rfl⟩
  | true =>
    have htc := hflag rfl
    cases hstk : e.uStk with
    | nil => simp [topCell, hstk] at htc
    | cons y stk =>
      obtain ⟨d, v⟩ := y
      simp only [topCell, hstk, List.head?_cons, Option.map_some, Option.some.injEq] at htc
      have hpop : ∃ e', e.uPopNSwap (.above k) = some e' ∧ e' = { e.put d v with
          uStk := (.above k, (e.put d v).mem (.above k)) :: stk } := by
        simp [Editor.uPopNSwap, hstk]
      obtain ⟨e', hrun, heq⟩ := hpop
      have hk : Kept n B e e' := by
        apply (Kept.refl e).uPopNSwap hrun
        intro l hc
        simp only [hstk, List.head?_cons, Option.map_some, Option.some.injEq] at hc
        rcases htc with htc | ⟨i, htc⟩ <;> simp [hc] at htc
      subst heq
      refine ⟨_, hrun, hk, rfl, ?_, ?_, rfl, rfl, rfl, rfl⟩
      · intro l hl
        rcases htc with rfl | ⟨i, rfl⟩ <;> simp [hl]
      · intro l
        rcases htc with rfl | ⟨i, rfl⟩ <;> simp

theorem Marked.topCell (h : Marked e e') :
    topCell e' = topCell e ∨ ∃ i, topCell e' = some (.mark i) := by
  obtain ⟨log, hlog, heq⟩ := h.pushed
  cases log with
  | nil => exact .inl (by simp [Ed.topCell, heq])
  | cons y log =>
    obtain ⟨i, hi⟩ := hlog y (by simp)
    exact .inr ⟨i, by simp [Ed.topCell, heq, hi]⟩

theorem replaceLine_spec {hs : List Nat} {reuse : Bool} (hbuf : e.Buf (P ++ cur :: Q))
    (hs0 : hs ≠ []) (hn : n ≤ e.fresh) (hB : ∀ l ∈ P, l ∈ B ∨ n ≤ l)
    (hnew : topCell e = some (.above cur) → ∀ p, last P = some p → n ≤ p)
    (hflag : P = [] → reuse = false) :
    ∃ N l reuse' e', e.replaceLine cur hs reuse = some (l, reuse', e') ∧ Kept n B e e' ∧
      e'.Buf (P ++ N ++ Q) ∧ last N = some l ∧ (∀ k ∈ N, n ≤ k) ∧ e'.dStk = e.dStk ∧
      ∀ s, first Q = some s → topCell e' = some (.above s) := by
  obtain ⟨hP, ⟨habove, hbelow⟩, hQ⟩ := linked_append_cons.1 hbuf.links
  have hd := hbuf.nodup
  have hdPQ : (P ++ Q).Nodup := by
    simp only [List.nodup_append, List.nodup_cons] at hd ⊢
    exact ⟨hd.1, hd.2.1.2, fun a ha b hb => hd.2.2 a ha b (by simp [hb])⟩
  have hcur : cur ∉ P ++ Q := by
    simp only [List.nodup_append, List.nodup_cons, List.mem_append] at hd ⊢
    rintro (hc | hc)
    · exact hd.2.2 cur hc cur (by simp) rfl
    · exact hd.2.1.1 hc
  have hlt : ∀ l ∈ P ++ Q, l < e.fresh := by
    intro l hl
    apply hbuf.lines
    simp only [List.mem_append, List.mem_cons] at hl ⊢
    tauto
  have htop : e.top = headKey some (some cur) P := by
    rw [hbuf.top]
    simp
  -- The pieces.
  obtain ⟨N, reuse', e₁, hloop, hg, ht₁, hflag₁, hN⟩ := pieceLoop_grown cur false hs hP
    (List.nodup_append.1 hdPQ).1 (fun l hl => hlt l (List.mem_append_left Q hl)) htop hn hB hnew
      (by simp)
  have hloop' : e.pieceLoop cur hs (last P) reuse = (last (P ++ N), reuse', e₁) := by
    obtain ⟨h, hs, rfl⟩ := List.exists_cons_of_ne_nil hs0
    rw [← hloop]
    cases hlp : last P with
    | none => rw [hflag (last_eq_none.1 hlp)]
    | some p => exact pieceLoop_flag
  have hN := hN hs0
  obtain ⟨N', l, rfl⟩ := (List.eq_nil_or_concat' N).resolve_left hN
  have hlN : last (N' ++ [l]) = some l := lastKey_concat
  have hlP : last (P ++ (N' ++ [l])) = some l := by
    rw [last, lastKey_append]
    exact lastKey_of_last hlN
  have hnewN : ∀ k ∈ N' ++ [l], n ≤ k := fun k hk => Nat.le_trans hn (hg.fresh_le hk).1
  have hnl := hnewN l (by simp)
  have hnd := hg.nodup hdPQ hlt
  have hQ₁ := hg.rest hdPQ (fun l hl => hlt l (List.mem_append_right P hl)) hQ
  have hlt₁ : ∀ k ∈ P ++ (N' ++ [l]) ++ Q, k < e₁.fresh := by
    intro k hk
    rcases List.mem_append.1 hk with hk | hk
    · rcases List.mem_append.1 hk with hk | hk
      · exact Nat.lt_of_lt_of_le (hlt k (List.mem_append_left Q hk)) hg.kept.fresh
      · exact (hg.fresh_le hk).2
    · exact Nat.lt_of_lt_of_le (hlt k (List.mem_append_right P hk)) hg.kept.fresh
  have hcur₁ : ∀ k ∈ P ++ (N' ++ [l]) ++ Q, k ≠ cur := by
    rintro k hk rfl
    simp only [List.mem_append] at hk hcur
    rcases hk with (hk | hk) | hk
    · exact hcur (.inl hk)
    · exact Nat.not_lt.2 (hg.fresh_le (List.mem_append.2 hk)).1 (hbuf.lines k (by simp))
    · exact hcur (.inr hk)
  have htop₁ : e₁.top = first (P ++ (N' ++ [l]) ++ Q) := by
    rw [ht₁]
    cases P with
    | nil => cases N' <;> rfl
    | cons p P => rfl
  have hbot₁ : e₁.bottom = lastKey some (some cur) Q := by
    rw [hg.bottom, hbuf.bottom]
    simp
  -- The link to the rest, and the marks.
  let e₂ := e₁.put (.below l) (first Q)
  have hm := Marked.kuChk e₂ cur cur (e₂.mem (.below cur))
  generalize he₃ : e₂.kuChk cur cur (e₂.mem (.below cur)) = e₃ at hm
  have hk₃ : Kept n B e e₃ := by
    apply Kept.marked _ hm
    exact hg.kept.put (.below l) (.inr hnl) (fun hold => absurd hold (Nat.not_lt.2 hnl)) _
  have hbelow₃ : ∀ k, e₃.mem (.below k) = if some l = some k then first Q else e₁.mem (.below k) :=
    by
    intro k
    rw [(hm.links k).2]
    simp [e₂, eq_comm]
  have habove₃ : ∀ k, e₃.mem (.above k) = e₁.mem (.above k) := by
    intro k
    rw [(hm.links k).1]
    simp [e₂, Editor.put]
  have hfr₃ : e₃.fresh = e₁.fresh := by rw [hm.eq]; rfl
  have htop₃ : e₃.top = e₁.top := by rw [hm.eq]; rfl
  have hbot₃ : e₃.bottom = e₁.bottom := by rw [hm.eq]; rfl
  have hds₃ : e₃.dStk = e.dStk := by rw [hm.eq]; exact hg.dStk
  have hseg := hg.links.tie hQ₁ hnd fun _ => rfl
  rw [hlP] at hseg
  cases Q with
  | nil =>
    refine ⟨N' ++ [l], l, reuse', { e₃ with bottom := some l }, ?_, hk₃.ends _ _ _ _,
      ⟨hnd, ?_, ?_, ?_, ?_⟩, hlN,
      hnewN, hds₃, by simp⟩
    · simp only [Editor.replaceLine, habove, hbelow, hloop', hlP]
      simp [← he₃, e₂]
    · apply hseg.congr
      intro k _
      exact ⟨by simpa using habove₃ k, hbelow₃ k⟩
    · exact htop₃.trans htop₁
    · simp
    · intro k hk
      exact Nat.lt_of_lt_of_eq (hlt₁ k hk) hfr₃.symm
  | cons s Q =>
    obtain ⟨e₄, hlog, hk₄, htc₄, ha₄, hb₄, ht₄, hbo₄, hd₄, hf₄⟩ :=
      logAbove_spec reuse' s cur (e := e₃) (n := n)
      (B := B) fun hr => by
        rcases hm.topCell with htc | htc
        · exact .inl (htc.trans (hflag₁ hr))
        · exact .inr htc
    have hmem₄ : Cell.above s ∈ e₄.uStk.map Prod.fst := by
      obtain ⟨y, hy, heq⟩ := Option.map_eq_some_iff.1 htc₄
      exact List.mem_map.2 ⟨y, List.mem_of_head? hy, heq⟩
    refine ⟨N' ++ [l], l, reuse', e₄.put (.above s) (some l), ?_,
      (hk₃.trans hk₄).put (.above s) trivial (fun _ => hmem₄) _, ⟨hnd, ?_, ?_, ?_, ?_⟩, hlN, hnewN,
      hd₄.trans hds₃, ?_⟩
    · simp only [Editor.replaceLine, habove, hbelow, hloop', hlP]
      simp [e₂] at he₃
      simp [he₃, hlog]
    · apply hseg.congr
      intro k hk
      constructor
      · have hk₄ := ha₄ k (hcur₁ k hk)
        rw [habove₃] at hk₄
        simp [hk₄, eq_comm]
      · have hk₄ := (hb₄ k).trans (hbelow₃ k)
        rw [tie_below]
        exact Eq.trans (by simp [Editor.put]) hk₄
    · exact (ht₄.trans htop₃).trans htop₁
    · refine (hbo₄.trans hbot₃).trans (hbot₁.trans ?_)
      simp
    · intro k hk
      exact Nat.lt_of_lt_of_eq (hlt₁ k hk) (hf₄.trans hfr₃).symm
    · rintro k ⟨⟩
      exact htc₄

theorem substLine_spec {subst : Line → Option (List Nat)} (reuse : Bool) (lst : Option Line)
    (hbuf : e.Buf (P ++ cur :: (R ++ S))) (hsub : ∀ l hs, subst l = some hs → hs ≠ [])
      (hf : last (cur :: R) = some fini) (hn : n ≤ e.fresh)
    (hB : ∀ l ∈ P ++ cur :: (R ++ S), l ∈ B ∨ n ≤ l) (hflag : P = [] → reuse = false)
    (htop : ∀ k, topCell e = some (.above k) → k ∈ P ∨ k = cur ∧ ∀ p, last P = some p → n ≤ p) :
    ∃ P₁ l fini' reuse' lst' e₁, e.substLine subst cur fini reuse lst = some
      (l, fini', reuse', lst', e₁) ∧
      Kept n B e e₁ ∧ e₁.Buf (P₁ ++ (R ++ S)) ∧ last P₁ = some l ∧
        fini' = (if R = [] then l else fini) ∧
      (∀ k ∈ P₁, k ∈ B ∨ n ≤ k) ∧ e₁.dStk = e.dStk ∧
      ∀ s k, first (R ++ S) = some s → topCell e₁ = some (.above k) → k ∈ P₁ ∨ k = s ∧ n ≤ l := by
  have hcurP : cur ∉ P := fun hc => (List.nodup_append.1 hbuf.nodup).2.2 cur hc cur (by simp) rfl
  have hcurR : R ≠ [] → cur ≠ fini := by
    rintro hne rfl
    obtain ⟨r, R', rfl⟩ := List.exists_cons_of_ne_nil hne
    have hd := (List.nodup_append.1 hbuf.nodup).2.1
    exact (List.nodup_cons.1 hd).1 (List.mem_append_left S (last_mem (by simpa using hf)))
  have hfR : R = [] → cur = fini := by
    rintro rfl
    simpa using hf
  cases hsc : subst cur with
  | none =>
    refine ⟨P ++ [cur], cur, fini, reuse, lst, e, by simp [Editor.substLine, hsc], .refl e,
      by simpa using hbuf,
      lastKey_concat, ?_, ?_, rfl, ?_⟩
    · split
      · exact (hfR ‹_›).symm
      · rfl
    · intro k hk
      apply hB
      simp only [List.mem_append, List.mem_cons] at hk ⊢
      tauto
    · intro s k _ hk
      rcases htop k hk with hk | ⟨rfl, -⟩
      · exact .inl (by simp [hk])
      · exact .inl (by simp)
  | some hs =>
    obtain ⟨N, l, reuse', e₁, hrun, hk, hb, hl, hN, hds, htc⟩ :=
      replaceLine_spec (B := B) hbuf (hsub cur hs hsc) hn
      (fun l hl => hB l (by simp [hl])) (fun hk p hp => by
        rcases htop cur hk with hc | ⟨-, hc⟩
        · exact absurd hc hcurP
        · exact hc p hp) hflag
    refine ⟨P ++ N, l, if cur = fini then l else fini, reuse', some l, e₁, ?_, hk, hb, ?_, ?_, ?_,
      hds, ?_⟩
    · simp [Editor.substLine, hsc, hrun]
    · rw [last, lastKey_append]
      exact lastKey_of_last hl
    · by_cases hR : R = []
      · rw [if_pos (hfR hR), if_pos hR]
      · rw [if_neg (hcurR hR), if_neg hR]
    · intro k hk
      rcases List.mem_append.1 hk with hk | hk
      · exact hB k (by simp [hk])
      · exact .inr (hN k hk)
    · intro s k hs hk
      rw [htc s hs] at hk
      cases hk
      exact .inr ⟨rfl, hN l (last_mem hl)⟩

theorem substLoop_spec {subst : Line → Option (List Nat)}
    (hsub : ∀ l hs, subst l = some hs → hs ≠ []) (reuse : Bool) (lst : Option Line) {k : Nat}
    (hbuf : e.Buf (P ++ cur :: (R ++ S))) (hf : last (cur :: R) = some fini) (hk : R.length < k)
    (hn : n ≤ e.fresh) (hB : ∀ l ∈ P ++ cur :: (R ++ S), l ∈ B ∨ n ≤ l)
    (hflag : P = [] → reuse = false)
    (htop : ∀ k, topCell e = some (.above k) → k ∈ P ∨ k = cur ∧ ∀ p, last P = some p → n ≤ p) :
    ∃ lst' e' B', e.substLoop subst k cur fini reuse lst = some (lst', e') ∧ Kept n B e e' ∧
      e'.Buf B' ∧ (∀ l ∈ B', l ∈ B ∨ n ≤ l) ∧ e'.dStk = e.dStk := by
  induction R generalizing e P cur reuse lst k with
  | nil =>
    obtain ⟨k, rfl⟩ := Nat.exists_eq_add_of_lt hk
    obtain ⟨P₁, l, fini', reuse', lst', e₁, hline, hk₁, hb₁, hl, hf₁, hP₁, hds, -⟩ :=
      substLine_spec reuse lst hbuf hsub hf hn hB hflag htop
    rw [if_pos rfl] at hf₁
    refine ⟨lst', e₁, P₁ ++ S, ?_, hk₁, hb₁, ?_, hds⟩
    · simp [Editor.substLoop, hline, hf₁]
    · intro l hl
      rcases List.mem_append.1 hl with hl | hl
      · exact hP₁ l hl
      · exact hB l (by simp [hl])
  | cons r R ih =>
    obtain ⟨k, rfl⟩ : ∃ k', k = k' + 1 := ⟨k - 1, by simp at hk; omega⟩
    obtain ⟨P₁, l, fini', reuse', lst', e₁, hline, hk₁, hb₁, hl, hf₁, hP₁, hds, htop₁⟩ :=
      substLine_spec reuse lst hbuf hsub hf hn hB hflag htop
    rw [if_neg (by simp)] at hf₁
    obtain ⟨hPseg, hRS⟩ := seg_append.1 hb₁.links
    have hfr : last (r :: R) = some fini := by simpa using hf
    have hbl : e₁.mem (.below l) = some r := hPseg.below_last hl
    have hbf : e₁.mem (.below fini) = first S := (seg_append.1 hRS).1.below_last hfr
    have hne : e₁.mem (.below l) ≠ e₁.mem (.below fini) := by
      rw [hbl, hbf]
      intro hc
      have hd := (List.nodup_append.1 hb₁.nodup).2.1
      exact (List.nodup_append.1 hd).2.2 r (by simp) r (first_mem hc.symm) rfl
    obtain ⟨lst₂, e₂, B', hrun, hk₂, hb₂, hB₂, hds₂⟩ := ih reuse' lst' (k := k) hb₁ hfr
      (by simp at hk; omega) (Nat.le_trans hn hk₁.fresh)
      (fun l hl => by
        rcases List.mem_append.1 hl with hl | hl
        · exact hP₁ l hl
        · exact hB l (List.mem_append_right P (List.mem_cons_of_mem _ hl)))
      (fun hnil => by simp [hnil] at hl)
      (fun j hj => by
        rcases htop₁ r j rfl hj with hj | ⟨hj, hnl⟩
        · exact .inl hj
        · refine .inr ⟨hj, ?_⟩
          intro p hp
          rw [hl] at hp
          cases hp
          exact hnl)
    refine ⟨lst₂, e₂, B', ?_, hk₁.trans hk₂, hb₂, hB₂, hds₂.trans hds⟩
    have hne' := hne
    rw [hbl, hbf] at hne'
    rw [hf₁] at hline
    simp only [Editor.substLoop, hline, Option.bind_eq_bind, Option.bind_some, hbl, hbf,
      if_neg hne', hrun]

theorem Editor.Buf.s {start : Line} {subst : Line → Option (List Nat)} (hbuf : e.Buf (P ++ R ++ S))
    (hs : first R = some start) (hf : last R = some fini)
    (hsub : ∀ l hs, subst l = some hs → hs ≠ []) :
    ∃ e' B', e.s subst start fini = some e' ∧ Ran (P ++ R ++ S) B' e.uClrStk e' := by
  have hbuf₀ := hbuf.uClrStk
  have hstk : e.uClrStk.uStk = [] := by
    obtain ⟨_, _, heq⟩ := uClrStk_eq e
    rw [heq]
  have hndR := (List.nodup_append.1 (List.nodup_append.1 hbuf₀.nodup).1).2.1
  have hlen := length_le_of_lt hndR fun l hl => hbuf₀.lines l (by simp [hl])
  obtain ⟨R', rfl⟩ := first_eq_some.1 hs
  have heq : P ++ start :: R' ++ S = P ++ start :: (R' ++ S) := by simp
  rw [heq] at hbuf₀ ⊢
  obtain ⟨lst, e', B', hrun, hk, hb, hB, hds⟩ := substLoop_spec
    (B := P ++ start :: (R' ++ S)) hsub false none
    hbuf₀ hf hlen (Nat.le_refl _) (fun l hl => .inl hl) (fun _ => rfl)
    (fun k hk => by simp [topCell, hstk] at hk)
  have hran : Ran (P ++ start :: (R' ++ S)) B' e.uClrStk e' := ⟨hk, hb, hB, .inl hds⟩
  exact ⟨_, B', by simp only [Editor.s, hrun, Option.pure_def, Option.bind_eq_bind,
    Option.bind_some],
    hran.current lst⟩

end Bsdi.Ed
