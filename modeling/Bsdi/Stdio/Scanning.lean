import Bsdi.Stdio.Position
import Bsdi.Stdio.Vfscanf
import Bsdi.Stdlib.Subject

/-!
# Integers in a stream

What the conversions of integers take from a stream, whatever its buffers are, and that it is the
longest subject sequence in the field, but for a sign before an `x` and long fields.
-/

namespace Bsdi.Scanf

open Bsdi.Stdio
open Bsdi.Stdlib hiding Byte

/-! ### The stream -/

section

variable {file : List Byte} {dev : Reader} {s s' : Istream}

def Pushable (s : Istream) : Prop := s.base = true ∨ s.koff = 0

theorem pushable (h : Good file s) (ha : 0 < s.avail) : Pushable s := by
  rcases h.buffer with hn | ⟨d, k, hf⟩
  · cases hu : s.ub with
    | some u => exact .inr (hn.start (.inr (by rw [hu]; rfl)))
    | none =>
      simp only [Istream.avail, hu, hn.r] at ha
      exact absurd ha (by decide)
  · exact .inl hf.base

theorem Pushable.srefill (h : Pushable s) : Pushable (s.srefill file dev).2 := by
  have hfill : ∀ t : Istream, (Istream.fill file dev t).2.base = true := by
    intro t
    unfold Istream.fill Istream.smakebuf
    dsimp only
    split_ifs <;> (try cases t.ub) <;> first | rfl | assumption
  unfold Istream.srefill
  split_ifs
  · cases s.ub <;> exact h
  · cases s.ub with
    | none => exact .inl (hfill _)
    | some u =>
      dsimp only
      split_ifs
      · exact h
      · exact .inl (hfill _)

theorem Pushable.advance {n : Nat} (h : Pushable s) : Pushable (s.advance n) := by
  unfold Istream.advance
  cases s.ub <;> exact h

theorem next_spec (hdev : Delivers dev) (h : Good file s) (ha : 0 < s.avail) :
    ∃ c s', s.load 1 = some [c] ∧ next file dev s = (decide (s'.text file ≠ []), s') ∧
      Took file s [c] s' ∧ Pushable s' ∧ (s'.text file ≠ [] → 0 < s'.avail) := by
  obtain ⟨bytes, hload, hlen, htook⟩ := h.advance (n := 1) (by omega)
  obtain ⟨c, rfl⟩ := List.length_eq_one_iff.1 hlen
  have hpush := pushable h ha
  unfold next
  by_cases hmore : 1 < s.avail
  · have havail : (s.advance 1).avail = s.avail - 1 := by
      unfold Istream.advance Istream.avail
      cases hu : s.ub with
      | none => rfl
      | some u =>
        simp only [Istream.avail, hu] at hmore
        dsimp only
        omega
    obtain ⟨bytes, -, hbytes, hrest⟩ := htook.good.advance (n := 1) (by omega)
    have hne : (s.advance 1).text file ≠ [] := by
      rw [hrest.text]
      intro hnil
      rw [(List.append_eq_nil_iff.1 hnil).1] at hbytes
      cases hbytes
    refine ⟨c, s.advance 1, hload, ?_, htook, hpush.advance, fun _ => by omega⟩
    rw [if_pos hmore, decide_eq_true hne]
  · have hone : s.avail.toNat = 1 := by omega
    have hempty := h.advance_avail
    rw [hone] at hempty
    obtain ⟨ok, s', hrun, htook', hok⟩ := htook.good.srefill hdev hempty
    have htake := htook.trans htook'
    rw [List.append_nil] at htake
    have hback := @Pushable.srefill file dev s hpush
    rw [if_neg hmore, srefill_advance h ha (n := 1), hrun]
    rw [srefill_advance h ha (n := 1), hrun] at hback
    refine ⟨c, s', hload, ?_, htake, hback, ?_⟩
    · cases ok with
      | true =>
        obtain ⟨bytes, -, hbytes, hrest⟩ := htake.good.advance (n := 1) (by simp at hok; omega)
        have hne : s'.text file ≠ [] := by
          rw [hrest.text]
          intro hnil
          rw [(List.append_eq_nil_iff.1 hnil).1] at hbytes
          cases hbytes
        rw [decide_eq_true hne]
      | false =>
        have hnil : s'.text file = [] := htook'.text.symm.trans hok.1
        rw [decide_eq_false (not_not_intro hnil)]
    · intro hne
      cases ok with
      | true => exact hok
      | false => exact absurd (htook'.text.symm.trans hok.1) hne

theorem count_add (nread : Int) (n m : Nat) : count (count nread n) m = count nread (n + m) := by
  unfold count
  rw [Int.bmod_add_bmod, Nat.cast_add, Int.add_assoc]

theorem skip_spec (hdev : Delivers dev) (turns : Nat) : ∀ (nread : Int) (s : Istream),
    count nread 0 = nread → Good file s → 0 < s.avail → (s.text file).length ≤ turns →
    ∃ s', skip file dev turns nread s = some
        (decide ((s.text file).dropWhile isspace ≠ []),
          count nread ((s.text file).takeWhile isspace).length, s') ∧
      Took file s ((s.text file).takeWhile isspace) s' ∧ (s'.text file ≠ [] → 0 < s'.avail) := by
  induction turns with
  | zero =>
    intro nread s _ h ha hlen
    obtain ⟨c, s', -, -, htook, -⟩ := next_spec hdev h ha
    rw [htook.text] at hlen
    exact absurd hlen (Nat.not_succ_le_zero _)
  | succ turns ih =>
    intro nread s hnread h ha hlen
    obtain ⟨c, s', hload, hnext, htook, -, hmore⟩ := next_spec hdev h ha
    rw [skip, hload]
    simp only [Option.bind_eq_bind, Option.bind_some, List.head?_cons]
    rw [hnext]
    rw [htook.text] at hlen ⊢
    rw [List.singleton_append, List.length_cons] at hlen
    rw [List.singleton_append]
    cases hspace : isspace c with
    | false =>
      rw [List.dropWhile_cons_of_neg (by rw [hspace]; decide),
        List.takeWhile_cons_of_neg (by rw [hspace]; decide),
        decide_eq_true (List.cons_ne_nil _ _), List.length_nil, hnread]
      exact ⟨s, rfl, h.refl, fun _ => ha⟩
    | true =>
      rw [if_pos rfl, List.dropWhile_cons_of_pos hspace, List.takeWhile_cons_of_pos hspace,
        List.length_cons, Nat.add_comm, ← count_add]
      by_cases hend : s'.text file = []
      · rw [hend, decide_eq_false (not_not_intro rfl)]
        refine ⟨s', ?_, htook, fun hne => absurd hend hne⟩
        simp only [List.dropWhile_nil, List.takeWhile_nil, List.length_nil, count_add, ne_eq,
          not_true_eq_false, decide_false, Nat.add_zero]
      · rw [decide_eq_true hend]
        obtain ⟨s'', hrun, htook', hmore'⟩ := ih (count nread 1) s' (count_add nread 1 0) htook.good
          (hmore hend) (Nat.le_of_succ_le_succ hlen)
        exact ⟨s'', hrun, htook.trans htook', hmore'⟩

def taken (n : Nat) (f : Flags) : List Byte → List Byte × Flags
  | [] => ([], f)
  | c :: t =>
    match legal n c f with
    | none => ([], f)
    | some f => (c :: (taken (n + 1) f t).1, (taken (n + 1) f t).2)

theorem collect_spec (hdev : Delivers dev) (width : Nat) :
    ∀ (buf : List Byte) (f : Flags) (s : Istream), Good file s → 0 < s.avail → ∃ s',
      collect file dev width buf f s = some
        (buf ++ (taken buf.length f ((s.text file).take width)).1,
          (taken buf.length f ((s.text file).take width)).2, s') ∧
      Took file s (taken buf.length f ((s.text file).take width)).1 s' ∧ Pushable s' := by
  induction width with
  | zero =>
    intro buf f s h ha
    refine ⟨s, ?_, h.refl, pushable h ha⟩
    rw [List.take_zero, taken, List.append_nil]
    rfl
  | succ width ih =>
    intro buf f s h ha
    obtain ⟨c, s', hload, hnext, htook, hpush, hmore⟩ := next_spec hdev h ha
    rw [collect, hload]
    simp only [Option.bind_eq_bind, Option.bind_some, List.head?_cons]
    rw [hnext, htook.text, List.singleton_append, List.take_succ_cons, taken]
    cases hlegal : legal buf.length c f with
    | none =>
      refine ⟨s, ?_, h.refl, pushable h ha⟩
      rw [List.append_nil]
    | some f' =>
      dsimp only
      by_cases hend : s'.text file = []
      · rw [hend, decide_eq_false (not_not_intro rfl), List.take_nil, taken]
        exact ⟨s', rfl, htook, hpush⟩
      · rw [decide_eq_true hend]
        obtain ⟨s'', hrun, htook', hpush'⟩ := ih (buf ++ [c]) f' s' htook.good (hmore hend)
        have hlen : (buf ++ [c]).length = buf.length + 1 := by simp
        rw [hlen] at hrun htook'
        rw [List.append_assoc, List.singleton_append] at hrun
        exact ⟨s'', hrun, htook.trans htook', hpush'⟩

end

/-! ### Digits -/

def IsBase (base : Nat) : Prop := base = 8 ∨ base = 10 ∨ base = 16

theorem digit_below (c : Byte) {base : Nat} (hbase : IsBase base) :
    ((digit c).any fun d => d < base) = true ↔
      c = 48 ∨ (49 ≤ c ∧ c ≤ 55) ∨ ((c = 56 ∨ c = 57) ∧ 8 < base) ∨
        (((65 ≤ c ∧ c ≤ 70) ∨ (97 ≤ c ∧ c ≤ 102)) ∧ 10 < base) := by
  have hall : ∀ n : Fin 256, ∀ base ∈ [8, 10, 16],
      (((digit (UInt8.ofFin n)).any fun d => d < base) = true ↔
        UInt8.ofFin n = 48 ∨ (49 ≤ UInt8.ofFin n ∧ UInt8.ofFin n ≤ 55) ∨
          ((UInt8.ofFin n = 56 ∨ UInt8.ofFin n = 57) ∧ 8 < base) ∨
          (((65 ≤ UInt8.ofFin n ∧ UInt8.ofFin n ≤ 70) ∨
            (97 ≤ UInt8.ofFin n ∧ UInt8.ofFin n ≤ 102)) ∧ 10 < base)) := by
    decide +kernel
  have h := hall c.toFin base (by simpa [IsBase] using hbase)
  rwa [UInt8.ofFin_toFin] at h

theorem legal_digit {n : Nat} {c : Byte} {f : Flags} (hbase : IsBase (basefix f.base))
    (hc : ((digit c).any fun d => d < basefix f.base) = true) (hzero : c ≠ 48) :
    legal n c f = some (f.digit (basefix f.base)) := by
  unfold legal
  rw [if_neg hzero]
  rcases (digit_below c hbase).1 hc with h | h | ⟨h, h8⟩ | ⟨h, h10⟩
  · exact absurd h hzero
  · rw [if_pos h]
  · rw [if_neg (by rcases h with rfl | rfl <;> decide), if_pos h, if_neg (Nat.not_le.2 h8)]
  · have hne : f.base ≠ 0 := by
      rintro hf
      rw [basefix, if_pos hf] at h10
      exact absurd h10 (Nat.lt_irrefl _)
    rw [basefix, if_neg hne] at h10 ⊢
    have hnot : ¬(49 ≤ c ∧ c ≤ 55) ∧ ¬(c = 56 ∨ c = 57) := by
      simp only [UInt8.le_iff_toNat_le, ← UInt8.toNat_inj, UInt8.reduceToNat] at h ⊢
      omega
    rw [if_neg hnot.1, if_neg hnot.2, if_pos h, if_neg (Nat.not_le.2 h10)]

theorem legal_other {n : Nat} {c : Byte} {f : Flags} (hbase : IsBase (basefix f.base))
    (hc : ¬((digit c).any fun d => d < basefix f.base) = true)
    (hsign : c = 43 ∨ c = 45 → f.signok = false)
    (hx : c = 120 ∨ c = 88 → ¬(f.pfxok = true ∧ n = 1)) : legal n c f = none := by
  have hnot := (not_congr (digit_below c hbase)).1 hc
  push Not at hnot
  obtain ⟨hzero, hoctal, height, hletter⟩ := hnot
  unfold legal
  rw [if_neg hzero, if_neg (fun h => hoctal h.1 h.2)]
  split_ifs with h1 h2 h3 h4 h5 h6 h7 h8
  · rfl
  · exact absurd (height h1) h2
  · rfl
  · have h10 := hletter h3
    unfold basefix at h10
    split_ifs at h10 <;> omega
  · rw [hsign h5] at h6
    cases h6
  · rfl
  · exact absurd h8 (hx h7)
  · rfl
  · rfl

theorem digitsOf_cons {radix : Nat} {c : Byte} {t : List Byte}
    (hc : ((digit c).any fun d => d < radix) = true) :
    digitsOf radix (c :: t) = c :: digitsOf radix t :=
  List.takeWhile_cons_of_pos hc

theorem digitsOf_stop {radix : Nat} {c : Byte} {t : List Byte}
    (hc : ¬((digit c).any fun d => d < radix) = true) : digitsOf radix (c :: t) = [] :=
  List.takeWhile_cons_of_neg hc

theorem taken_digits (t : List Byte) : ∀ (n : Nat) (f : Flags), IsBase f.base →
    f.signok = false → n ≠ 0 →
    (f.pfxok = false ∨ n ≠ 1 ∨ (t.head? ≠ some 120 ∧ t.head? ≠ some 88)) →
    ∃ f', taken n f t = (digitsOf f.base t, f') ∧ f'.base = f.base ∧
      f'.ndigits = (f.ndigits && (digitsOf f.base t).isEmpty) := by
  induction t with
  | nil =>
    intro n f _ _ _ _
    exact ⟨f, rfl, rfl, by simp [digitsOf]⟩
  | cons c t ih =>
    intro n f hbase hsign hn hpfx
    have hfix : basefix f.base = f.base := if_neg (by rcases hbase with h | h | h <;> omega)
    have hnext : ∀ f', legal n c f = some f' → f'.base = f.base → f'.signok = false →
        f'.ndigits = false → ((digit c).any fun d => d < f.base) = true →
        ∃ f'', taken n f (c :: t) = (digitsOf f.base (c :: t), f'') ∧ f''.base = f.base ∧
          f''.ndigits = (f.ndigits && (digitsOf f.base (c :: t)).isEmpty) := by
      intro f' hlegal hbase' hsign' hndigits hc
      obtain ⟨f'', hrun, hf, hd⟩ := ih (n + 1) f' (hbase' ▸ hbase) hsign' (Nat.succ_ne_zero n)
        (.inr (.inl (by omega)))
      have hcons : digitsOf f.base (c :: t) = c :: digitsOf f.base t :=
        digitsOf_cons hc
      refine ⟨f'', ?_, hf.trans hbase', ?_⟩
      · rw [taken, hlegal, hcons]
        dsimp only
        rw [hrun, hbase']
      · rw [hd, hndigits, hcons]
        simp
    by_cases hzero : c = 48
    · subst hzero
      have hc : ((digit 48).any fun d => d < f.base) = true := (digit_below 48 hbase).2 (.inl rfl)
      have hne : f.base ≠ 0 := by rcases hbase with h | h | h <;> omega
      cases hz : f.nzdigits with
      | true =>
        refine hnext { f with signok := false, nzdigits := false, ndigits := false } ?_ rfl rfl rfl
          hc
        unfold legal
        simp [hne, hz]
      | false =>
        refine hnext (f.digit f.base) ?_ rfl rfl rfl hc
        unfold legal
        simp [hne, hz]
    · by_cases hc : ((digit c).any fun d => d < f.base) = true
      · exact hnext (f.digit f.base) (by
          rw [legal_digit (hfix.symm ▸ hbase) (hfix.symm ▸ hc) hzero, hfix]) rfl rfl rfl hc
      · have hnone : legal n c f = none := by
          refine legal_other (hfix.symm ▸ hbase) (hfix.symm ▸ hc) (fun _ => hsign) ?_
          rintro hx ⟨hp, hn1⟩
          rcases hpfx with h | h | h
          · rw [hp] at h
            cases h
          · exact h hn1
          · rcases hx with rfl | rfl
            · exact h.1 rfl
            · exact h.2 rfl
        have hnil : digitsOf f.base (c :: t) = [] := digitsOf_stop hc
        refine ⟨f, ?_, rfl, ?_⟩
        · rw [taken, hnone, hnil]
        · rw [hnil]
          simp

/-- The base and the digits of a number without its sign. Behind a sign the scanner finds no
prefix. -/
def found (n base : Nat) (t : List Byte) : Nat × List Byte :=
  if n = 0 then detect base t
  else (if base = 0 then if t.head? = some 48 then 8 else 10 else base, t)

/-- Where a number begins, or behind its sign. -/
structure Entry (n : Nat) (f : Flags) (t : List Byte) : Prop where
  base : f.base = 0 ∨ IsBase f.base
  first : n = 0 ∧ (t.head? ≠ some 43 ∧ t.head? ≠ some 45) ∨
    n = 1 ∧ f.signok = false ∧ (f.pfxok = true → t.head? ≠ some 120 ∧ t.head? ≠ some 88)
  nzdigits : f.nzdigits = true
  ndigits : f.ndigits = true
  pfxok : f.pfxok = true ↔ f.base = 16

def Number (n : Nat) (f : Flags) (t : List Byte) : Prop :=
  ∃ px f', t = px ++ (found n f.base t).2 ∧
    taken n f t = (px ++ digitsOf (found n f.base t).1 (found n f.base t).2, f') ∧
    f'.ndigits = (px ++ digitsOf (found n f.base t).1 (found n f.base t).2).isEmpty ∧
    (f'.ndigits = false → f'.base = (found n f.base t).1) ∧
    (px = [] ∨ ∃ x, px = [48, x] ∧ (x = 120 ∨ x = 88) ∧ (found n f.base t).1 = 16)

theorem Entry.base_of_zero {n : Nat} {f : Flags} {t : List Byte} (h : Entry n f t) :
    IsBase (if f.base = 0 then 8 else f.base) := by
  split
  · exact .inl rfl
  · rename_i hne
    exact h.base.resolve_left hne

theorem Entry.base_of_other {n : Nat} {f : Flags} {t : List Byte} (h : Entry n f t) :
    IsBase (basefix f.base) := by
  unfold basefix
  split
  · exact .inr (.inl rfl)
  · rename_i hne
    exact h.base.resolve_left hne

theorem hexPrefix_cons {c : Byte} {t : List Byte} : hexPrefix (c :: t) = true ↔
    c = 48 ∧ (t.head? = some 120 ∨ t.head? = some 88) := by
  cases t with
  | nil => simp [hexPrefix]
  | cons x t => simp [hexPrefix]

theorem legal_zero (n : Nat) (f : Flags) (hz : f.nzdigits = true) : legal n 48 f = some
    { base := if f.base = 0 then 8 else f.base, signok := false, ndigits := false,
      nzdigits := false, pfxok := f.base = 0 || f.pfxok } := by
  unfold legal
  by_cases hbase : f.base = 0
  · simp [hbase, hz]
  · simp [hbase, hz]

theorem Entry.zero {n : Nat} {f : Flags} {t : List Byte} (h : Entry n f (48 :: t)) :
    Number n f (48 :: t) := by
  have hbase := h.base_of_zero
  unfold Number
  rw [taken, legal_zero n f h.nzdigits]
  dsimp only
  by_cases hhex : n = 0 ∧ (f.base = 0 ∨ f.base = 16) ∧ hexPrefix (48 :: t) = true
  · obtain ⟨rfl, hb, hp⟩ := hhex
    have hfound : found 0 f.base (48 :: t) = (16, (48 :: t).drop 2) :=
      (if_pos rfl).trans (if_pos ⟨hb, hp⟩)
    obtain ⟨x, t', ht, hx⟩ := hexPrefix_iff.1 hp
    obtain rfl : t = x :: t' := (List.cons.inj ht).2
    have hlegal : legal (0 + 1) x ⟨if f.base = 0 then 8 else f.base, false, false, false,
        f.base = 0 || f.pfxok⟩ = some ⟨16, false, false, false, false⟩ := by
      have hpfx : (decide (f.base = 0) || f.pfxok) = true := by
        rcases hb with hb | hb
        · simp [hb]
        · simp [h.pfxok.2 hb]
      rw [hpfx]
      rcases hx with rfl | rfl <;> rfl
    obtain ⟨f', hrun, hf, hd⟩ := taken_digits t' 2 ⟨16, false, false, false, false⟩
      (.inr (.inr rfl)) rfl (by decide) (.inl rfl)
    rw [hfound]
    refine ⟨[48, x], f', rfl, ?_, ?_, fun _ => hf, .inr ⟨x, rfl, hx, rfl⟩⟩
    · rw [taken, hlegal]
      dsimp only
      rw [hrun]
      rfl
    · rw [hd]
      rfl
  · have hfound : found n f.base (48 :: t) = (if f.base = 0 then 8 else f.base, 48 :: t) := by
      unfold found detect
      by_cases hn : n = 0
      · rw [if_pos hn, if_neg (fun hc => hhex ⟨hn, hc⟩)]
        split <;> rfl
      · rw [if_neg hn]
        split <;> rfl
    obtain ⟨f', hrun, hf, hd⟩ := taken_digits t (n + 1) ⟨if f.base = 0 then 8 else f.base, false,
      false, false, f.base = 0 || f.pfxok⟩ hbase rfl (Nat.succ_ne_zero n) (by
        by_cases hn : n = 0
        · by_cases hb : f.base = 0 ∨ f.base = 16
          · refine .inr (.inr (not_or.1 fun hc => hhex ⟨hn, hb, hexPrefix_cons.2 ⟨rfl, hc⟩⟩))
          · refine .inl ?_
            have hpfx : f.pfxok = false := by
              rw [← Bool.not_eq_true, h.pfxok]
              exact fun hc => hb (.inr hc)
            dsimp only
            rw [hpfx, Bool.or_false]
            exact decide_eq_false fun hc => hb (.inl hc)
        · exact .inr (.inl (by omega)))
    have hdigits : digitsOf (if f.base = 0 then 8 else f.base) (48 :: t) =
        48 :: digitsOf (if f.base = 0 then 8 else f.base) t :=
      digitsOf_cons ((digit_below 48 hbase).2 (.inl rfl))
    rw [hfound]
    dsimp only
    rw [hdigits]
    refine ⟨[], f', rfl, ?_, ?_, fun _ => hf, .inl rfl⟩
    · rw [hrun]
      rfl
    · rw [hd]
      rfl

theorem Entry.number {n : Nat} {f : Flags} {t : List Byte} (h : Entry n f t) : Number n f t := by
  cases t with
  | nil =>
    have hfound : (found n f.base []).2 = [] := by
      unfold found detect
      split_ifs <;> rfl
    refine ⟨[], f, by rw [hfound]; rfl, ?_, ?_, ?_, .inl rfl⟩
    · rw [hfound]
      rfl
    · rw [hfound, h.ndigits]
      rfl
    · rw [h.ndigits]
      exact fun hc => absurd hc (by decide)
  | cons c t =>
    by_cases hzero : c = 48
    · subst hzero
      exact h.zero
    · have hfound : found n f.base (c :: t) = (basefix f.base, c :: t) := by
        have hp : ¬hexPrefix (c :: t) = true := fun hc => hzero (hexPrefix_cons.1 hc).1
        have hhead : ¬(c :: t).head? = some 48 := fun hc => hzero (Option.some.inj hc)
        unfold found detect basefix
        rw [if_neg (fun hc : (f.base = 0 ∨ f.base = 16) ∧ _ => hp hc.2), if_neg hhead]
        split_ifs <;> rfl
      unfold Number
      rw [hfound]
      dsimp only
      by_cases hc : ((digit c).any fun d => d < basefix f.base) = true
      · obtain ⟨f', hrun, hf, hd⟩ := taken_digits t (n + 1) (f.digit (basefix f.base))
          h.base_of_other rfl (Nat.succ_ne_zero n) (.inl rfl)
        have hcons : digitsOf (basefix f.base) (c :: t) = c :: digitsOf (basefix f.base) t :=
          digitsOf_cons hc
        rw [taken, legal_digit h.base_of_other hc hzero, hcons]
        dsimp only
        refine ⟨[], f', rfl, ?_, ?_, fun _ => hf, .inl rfl⟩
        · rw [hrun]
          rfl
        · rw [hd]
          rfl
      · have hnil : digitsOf (basefix f.base) (c :: t) = [] := digitsOf_stop hc
        have hnone : legal n c f = none := by
          refine legal_other h.base_of_other hc ?_ ?_
          · rintro hs
            rcases h.first with ⟨-, hfirst⟩ | ⟨-, hfirst, -⟩
            · rcases hs with rfl | rfl
              · exact absurd rfl hfirst.1
              · exact absurd rfl hfirst.2
            · exact hfirst
          · rintro hx ⟨hp, hn⟩
            rcases h.first with ⟨hn0, -⟩ | ⟨-, -, hfirst⟩
            · omega
            · rcases hx with rfl | rfl
              · exact (hfirst hp).1 rfl
              · exact (hfirst hp).2 rfl
        rw [taken, hnone, hnil]
        refine ⟨[], f, rfl, rfl, ?_, ?_, .inl rfl⟩
        · rw [h.ndigits]
          rfl
        · rw [h.ndigits]
          exact fun hc => absurd hc (by decide)

/-! ### Fields -/

def IsSign (c : Byte) : Prop := c = 43 ∨ c = 45

def IsX (c : Byte) : Prop := c = 120 ∨ c = 88

/-- A sign and an `x` behind it. -/
def SignX (field : List Byte) : Prop := ∃ c x t, field = c :: x :: t ∧ IsSign c ∧ IsX x

theorem signed_length {neg : Bool} {sg : List Byte} (h : Signed neg sg) : sg.length ≤ 1 := by
  cases h <;> decide

def behind (c : Conversion) (sg : List Byte) : Flags :=
  { c.flags with signok := sg.isEmpty }

theorem Conversion.isBase (c : Conversion) : c.base = 0 ∨ IsBase c.base := by
  cases c
  · exact .inr (.inr (.inl rfl))
  · exact .inl rfl
  · exact .inr (.inl rfl)
  · exact .inr (.inr (.inl rfl))
  · exact .inr (.inr (.inr rfl))

theorem taken_sign {c : Conversion} {l : List Byte} (hx : ¬(c = .x ∧ SignX l)) :
    ∃ sg, l = sg ++ (sign l).2 ∧ Signed (sign l).1 sg ∧
      Entry sg.length (behind c sg) (sign l).2 ∧
      taken 0 c.flags l = (sg ++ (taken sg.length (behind c sg) (sign l).2).1,
        (taken sg.length (behind c sg) (sign l).2).2) := by
  have hpfx : (behind c []).pfxok = true ↔ (behind c []).base = 16 := by
    cases c <;> decide
  have hminus : ∀ (d : Byte) (t : List Byte), IsSign d → ¬(c = .x ∧ SignX (d :: t)) →
      Entry 1 (behind c [d]) t ∧ taken 0 c.flags (d :: t) =
        ([d] ++ (taken 1 (behind c [d]) t).1, (taken 1 (behind c [d]) t).2) := by
    intro d t hd hx
    refine ⟨⟨c.isBase, .inr ⟨rfl, rfl, fun hp => ?_⟩, rfl, rfl, hpfx⟩, ?_⟩
    · have hc : c = .x := by
        cases c <;> first | rfl | exact absurd hp Bool.false_ne_true
      cases t with
      | nil => exact ⟨by simp, by simp⟩
      | cons x t =>
        refine ⟨fun h => hx ⟨hc, d, x, t, rfl, hd, .inl (Option.some.inj h)⟩,
          fun h => hx ⟨hc, d, x, t, rfl, hd, .inr (Option.some.inj h)⟩⟩
    · have hlegal : legal 0 d c.flags = some (behind c [d]) := by
        rcases hd with rfl | rfl <;> cases c <;> rfl
      rw [taken, hlegal]
      rfl
  cases l with
  | nil => exact ⟨[], rfl, .none, ⟨c.isBase, .inl ⟨rfl, by simp [sign]⟩, rfl, rfl, hpfx⟩, rfl⟩
  | cons d t =>
    rw [sign]
    by_cases h45 : d = 45
    · subst h45
      exact ⟨[45], rfl, .minus, hminus 45 t (.inr rfl) hx⟩
    · rw [if_neg h45]
      by_cases h43 : d = 43
      · subst h43
        exact ⟨[43], rfl, .plus, hminus 43 t (.inl rfl) hx⟩
      · rw [if_neg h43]
        exact ⟨[], rfl, .none, ⟨c.isBase, .inl ⟨rfl, fun h => h43 (Option.some.inj h),
          fun h => h45 (Option.some.inj h)⟩, rfl, rfl, hpfx⟩, rfl⟩

/-! ### Subject sequences -/

def IsSubject (base : Nat) (u : List Byte) : Prop := ∃ neg n, Subject base u neg n

def Viable (base : Nat) (u : List Byte) : Prop := ∃ t, IsSubject base (u ++ t)

def Longest (p : List Byte → Prop) (field u : List Byte) : Prop :=
  p u ∧ u <+: field ∧ ∀ u', p u' → u' <+: field → u'.length ≤ u.length

theorem exists_digits (radix : Nat) (s : List Byte) :
    ∃ vals, Digits radix (digitsOf radix s) vals := by
  induction s with
  | nil => exact ⟨[], digits_nil⟩
  | cons c s ih =>
    by_cases hc : ((digit c).any fun d => d < radix) = true
    · obtain ⟨vals, hvals⟩ := ih
      rw [digitsOf_cons hc]
      cases hd : digit c with
      | none =>
        rw [hd] at hc
        cases hc
      | some d =>
        rw [hd] at hc
        exact ⟨d :: vals, digits_cons.2 ⟨⟨hd, of_decide_eq_true hc⟩, hvals⟩⟩
    · rw [digitsOf_stop hc]
      exact ⟨[], digits_nil⟩

theorem longest_exists {p : List Byte → Prop} (h : p []) (field : List Byte) :
    ∃ u, Longest p field u := by
  classical
  have hex : ∃ n, n ≤ field.length ∧ p (field.take n) ∧
      ∀ m, m ≤ field.length → p (field.take m) → m ≤ n := by
    let n := Nat.findGreatest (fun n => p (field.take n)) field.length
    exact ⟨n, Nat.findGreatest_le _, Nat.findGreatest_spec (P := fun n => p (field.take n))
      (Nat.zero_le _) h, fun m hm hp => Nat.le_findGreatest hm hp⟩
  obtain ⟨n, hn, hp, hmax⟩ := hex
  refine ⟨field.take n, hp, List.take_prefix n field, fun u' hu' hpre => ?_⟩
  rw [List.length_take_of_le hn]
  refine hmax u'.length hpre.length_le ?_
  rwa [← List.prefix_iff_eq_take.1 hpre]

theorem Longest.of_take {p : List Byte → Prop} {body field u : List Byte} {n : Nat}
    (h : Longest p (body.take n) u) (hfield : body.take n <+: field) (hbody : field <+: body)
    (hfits : ∀ u', p u' → u' <+: field → u'.length ≤ n) : Longest p field u :=
  ⟨h.1, h.2.1.trans hfield, fun u' hu' hpre => h.2.2 u' hu'
    (List.prefix_take_iff.2 ⟨hpre.trans hbody, hfits u' hu' hpre⟩)⟩

theorem longest_subject {base radix : Nat} {l sg px t : List Byte}
    (hspace : l.dropWhile isspace = l) (hl : l = sg ++ (sign l).2)
    (hsg : Signed (sign l).1 sg) (hbare : ¬BarePrefix base l)
    (hr : detect base (sign l).2 = (radix, t)) (hpx : (sign l).2 = px ++ t) :
    (digitsOf radix t = [] → ∀ w, IsSubject base w → ¬w <+: l) ∧
    (digitsOf radix t ≠ [] →
      Longest (IsSubject base) l (sg ++ (px ++ digitsOf radix t))) := by
  have hat : digitsAt base l = (radix, t) := by rw [digitsAt, hspace, hr]
  have hfound : ∀ w, IsSubject base w → w <+: l →
      digitsOf radix t ≠ [] ∧ w.length + (behindDigits radix t).length ≤ l.length := by
    rintro w ⟨neg, n, hw⟩ hpre
    have h := hw.found hpre hbare
    rwa [hat] at h
  refine ⟨fun hnone w hw hpre => (hfound w hw hpre).1 hnone, fun hne => ?_⟩
  have hdetect := @detect_radix base (sign l).2
  rw [hr] at hdetect
  obtain ⟨px', hpx', hradix⟩ := hdetect hne
  obtain rfl : px = px' := List.append_cancel_right (hpx.symm.trans hpx')
  obtain ⟨vals, hvals⟩ := exists_digits radix t
  have hsplit : digitsOf radix t ++ behindDigits radix t = t := List.takeWhile_append_dropWhile
  generalize digitsOf radix t = ds at *
  have hwhole : sg ++ (px ++ ds) ++ behindDigits radix t = l := by
    rw [List.append_assoc, List.append_assoc, hsplit, ← hpx, ← hl]
  refine ⟨⟨_, _, @Subject.intro base [] _ _ _ _ _ _ (fun _ h => absurd h List.not_mem_nil) hsg
      hradix hne hvals⟩,
    ⟨_, hwhole⟩, fun u hu hpre => ?_⟩
  have hle := (hfound u hu hpre).2
  have hlen := congrArg List.length hwhole
  rw [List.length_append] at hlen
  omega

theorem longest_bare {base : Nat} {l sg : List Byte} (hspace : l.dropWhile isspace = l)
    (hl : l = sg ++ (sign l).2) (hsg : Signed (sign l).1 sg) (hbare : BarePrefix base l) :
    Longest (IsSubject base) l (sg ++ [48]) := by
  unfold BarePrefix at hbare
  rw [hspace] at hbare
  obtain ⟨hbase, hp, hnone⟩ := hbare
  obtain ⟨x, t, hs, hx⟩ := hexPrefix_iff.1 hp
  rw [hs] at hnone hl hp
  refine ⟨⟨(sign l).1, 0, ?_⟩, ⟨x :: t, ?_⟩, ?_⟩
  · rcases hbase with rfl | rfl
    · exact @Subject.intro 0 [] sg [] [48] _ 8 [0] (fun _ h => absurd h List.not_mem_nil) hsg
        (.octal rfl rfl) (List.cons_ne_nil _ _)
        ⟨rfl, fun d hd => by rw [List.mem_singleton.1 hd]; decide⟩
    · exact @Subject.intro 16 [] sg [] [48] _ 16 [0] (fun _ h => absurd h List.not_mem_nil) hsg
        (.given (by decide)) (List.cons_ne_nil _ _)
        ⟨rfl, fun d hd => by rw [List.mem_singleton.1 hd]; decide⟩
  · rw [List.append_assoc]
    exact hl.symm
  · rintro u ⟨neg, n, hu⟩ ⟨rest, hrest⟩
    cases hu with
    | @intro sp sg' px ds _ radix vals hsp hsg' hradix hne hdigits =>
      have hhead : ∃ c t, px ++ ds ++ rest = c :: t ∧ (digit c).isSome = true := by
        obtain ⟨c, t, heq, hc⟩ := hradix.head hne hdigits
        exact ⟨c, t ++ rest, by rw [heq]; rfl, hc⟩
      have hassoc : sp ++ (sg' ++ (px ++ ds ++ rest)) = l := by
        rw [← hrest]
        simp only [List.append_assoc]
      have hskip := skip_append hsp hsg' hhead
      rw [hassoc, hspace] at hskip
      have hsign := sign_append hsg' hhead
      rw [← hskip] at hsign
      have hrest' : px ++ ds ++ rest = [48, x] ++ t := by rw [← hs, hsign]
      have hshort : px.length + ds.length ≤ 1 := by
        have hone : px = [] → radix ≤ 16 → px.length + ds.length ≤ 1 := by
          rintro rfl hradix
          rw [List.length_nil, Nat.zero_add]
          have hzerox : hexPrefix ([] ++ ds ++ rest) = true := by
            rw [hrest']
            exact hp
          exact hdigits.length_le_one hradix hzerox
        cases hradix with
        | hex hb hx' =>
          have ht : ds ++ rest = t := by simpa using (List.cons.inj (List.cons.inj hrest').2).2
          have hprefix : ds.length ≤ (digitsOf 16 (ds ++ rest)).length := hdigits.isPrefix.length_le
          rw [ht] at hprefix
          change digitsOf 16 t = [] at hnone
          rw [hnone] at hprefix
          exact absurd (List.eq_nil_of_length_eq_zero (Nat.le_zero.1 hprefix)) hne
        | octal => exact hone rfl (by decide)
        | decimal => exact hone rfl (by decide)
        | given h => exact hone rfl (by rcases hbase with rfl | rfl <;> decide)
      have hlen := congrArg List.length hassoc
      have hlen' := congrArg List.length hskip
      have hlen'' := congrArg List.length (hl.symm.trans hskip)
      have hrlen := congrArg List.length hrest'
      simp only [List.length_append, List.length_cons, List.length_nil] at hlen hlen' hlen'' hrlen ⊢
      omega

/-! ### What the scanner makes of a field -/

/-- The number is scanned: `w` without what is pushed back, or nothing. -/
inductive Scanned (buf : List Byte) (f : Flags) : Option (List Byte) → Prop
  | failed (hd : f.ndigits = true) (hlen : buf.length ≤ 1) : Scanned buf f none
  | number {w : List Byte} {d : Byte} (hd : f.ndigits = false) (hbuf : buf = w)
    (hlast : w.getLast? = some d) (hx : ¬IsX d) : Scanned buf f (some w)
  | pushed {w : List Byte} {x : Byte} (hd : f.ndigits = false) (hbuf : buf = w ++ [x])
    (hx : IsX x) : Scanned buf f (some w)

/-- The sign, the prefix and the rest of a field, with the base of its digits. -/
structure Parts (c : Conversion) (l sg px : List Byte) (radix : Nat) (t : List Byte) : Prop where
  found : found sg.length c.base (sign l).2 = (radix, t)
  split : l = sg ++ (sign l).2
  signed : Signed (sign l).1 sg
  rest : (sign l).2 = px ++ t
  px : px = [] ∨ ∃ x, px = [48, x] ∧ IsX x ∧ radix = 16

def numberOf (sg px ds : List Byte) : Option (List Byte) :=
  if ds ≠ [] then some (sg ++ (px ++ ds)) else if px ≠ [] then some (sg ++ [48]) else none

theorem digitsOf_last {radix : Nat} {t ds : List Byte} (hradix : radix ≤ 16)
    (h : digitsOf radix t = ds) (hne : ds ≠ []) : ∃ d, ds.getLast? = some d ∧ ¬IsX d := by
  refine ⟨ds.getLast hne, List.getLast?_eq_getLast_of_ne_nil hne, ?_⟩
  have hmem : ds.getLast hne ∈ digitsOf radix t := h ▸ List.getLast_mem hne
  have hdigit := List.mem_takeWhile_imp hmem
  generalize ds.getLast hne = d at hdigit
  rintro (rfl | rfl)
  all_goals
    have hlt : 33 < radix := of_decide_eq_true hdigit
    omega

theorem scanned_field {c : Conversion} {l buf : List Byte} {f : Flags}
    (ht : taken 0 c.flags l = (buf, f)) (hx : ¬(c = .x ∧ SignX l)) :
    ∃ sg px radix t o, Parts c l sg px radix t ∧ numberOf sg px (digitsOf radix t) = o ∧
      buf <+: l ∧ Scanned buf f o ∧ (f.ndigits = false → f.base = radix) := by
  obtain ⟨sg, hl, hsg, hentry, htaken⟩ := taken_sign hx
  obtain ⟨px, f', hpx, hrun, hd, hbase, hprefix⟩ := hentry.number
  have hb : (behind c sg).base = c.base := rfl
  rw [hb] at hpx hrun hd hbase hprefix
  rw [htaken, hrun] at ht
  obtain ⟨rfl, rfl⟩ := Prod.mk.inj ht
  have hradix : (found sg.length c.base (sign l).2).1 ≤ 16 := by
    have := c.isBase
    unfold IsBase at this
    unfold found detect
    split_ifs <;> dsimp only <;> omega
  generalize hr : found sg.length c.base (sign l).2 = r at *
  refine ⟨sg, px, r.1, r.2, _, ⟨hr, hl, hsg, hpx, hprefix⟩, rfl, ?_, ?_, hbase⟩
  · refine ⟨behindDigits r.1 r.2, ?_⟩
    rw [List.append_assoc, List.append_assoc, digitsOf, behindDigits,
      List.takeWhile_append_dropWhile, ← hpx, ← hl]
  · unfold numberOf
    generalize hds : digitsOf r.1 r.2 = ds at *
    by_cases hne : ds ≠ []
    · rw [if_pos hne]
      obtain ⟨d, hlast, hnx⟩ := digitsOf_last hradix hds hne
      refine .number (hd.trans ?_) rfl ?_ hnx
      · exact List.isEmpty_eq_false_iff.2 (List.append_ne_nil_of_right_ne_nil px hne)
      · rw [← List.append_assoc, List.getLast?_append_of_ne_nil _ hne, hlast]
    · obtain rfl : ds = [] := not_not.1 hne
      rw [if_neg hne, List.append_nil]
      rw [List.append_nil] at hd
      rcases hprefix with rfl | ⟨x, rfl, hx', -⟩
      · rw [if_neg (fun h => h rfl), List.append_nil]
        exact .failed hd (signed_length hsg)
      · rw [if_pos (List.cons_ne_nil _ _)]
        exact .pushed hd (by rw [List.append_assoc]; rfl) hx'

def SignHex (base : Nat) (field : List Byte) : Prop :=
  (base = 0 ∨ base = 16) ∧ ∃ d x h t, field = d :: 48 :: x :: h :: t ∧ IsSign d ∧ IsX x ∧
    ((digit h).any fun k => k < 16) = true

theorem found_plain {n base : Nat} {t : List Byte}
    (h : ¬(n = 0 ∧ (base = 0 ∨ base = 16) ∧ hexPrefix t = true)) : found n base t =
      (if base = 0 then if t.head? = some 48 then 8 else 10 else base, t) := by
  unfold found detect
  by_cases hn : n = 0
  · rw [if_pos hn, if_neg (fun hc => h ⟨hn, hc⟩)]
    split_ifs <;> rfl
  · rw [if_neg hn]

theorem found_hex {base : Nat} {t : List Byte} (hbase : base = 0 ∨ base = 16)
    (h : hexPrefix t = true) : found 0 base t = (16, t.drop 2) :=
  (if_pos rfl).trans (if_pos ⟨hbase, h⟩)

theorem Parts.detect {c : Conversion} {l sg px t : List Byte} {radix : Nat}
    (h : Parts c l sg px radix t) (hbare : ¬BarePrefix c.base l)
    (hspace : l.dropWhile isspace = l) (hhex : ¬SignHex c.base l) :
    detect c.base (sign l).2 = (radix, t) := by
  rw [← h.found]
  symm
  cases hsg : sg with
  | nil => exact if_pos rfl
  | cons d t =>
    have hone := signed_length h.signed
    obtain rfl : t = [] := by
      rw [hsg, List.length_cons] at hone
      exact List.eq_nil_of_length_eq_zero (by omega)
    rw [found_plain (fun hc : [d].length = 0 ∧ _ => Nat.succ_ne_zero 0 hc.1)]
    unfold Stdlib.detect
    by_cases hp : (c.base = 0 ∨ c.base = 16) ∧ hexPrefix (sign l).2 = true
    · obtain ⟨x, t, hs, hx⟩ := hexPrefix_iff.1 hp.2
      refine absurd ⟨hp.1, ?_⟩ hhex
      unfold BarePrefix at hbare
      rw [hspace] at hbare
      have hdigits : digitsOf 16 t ≠ [] := fun hnil => hbare ⟨hp.1, hp.2, by rw [hs]; exact hnil⟩
      cases t with
      | nil => exact absurd rfl hdigits
      | cons k t =>
        have hk : ((digit k).any fun k => k < 16) = true := by
          by_contra hk
          exact hdigits (digitsOf_stop hk)
        refine ⟨d, x, k, t, ?_, ?_, hx, hk⟩
        · have hl := h.split
          rw [hs, hsg] at hl
          exact hl
        · have hsigned := h.signed
          rw [hsg] at hsigned
          generalize (sign l).1 = neg at hsigned
          cases hsigned with
          | plus => exact .inl rfl
          | minus => exact .inr rfl
    · rw [if_neg hp]
      split_ifs <;> rfl

theorem Parts.zero {c : Conversion} {l sg px t t' : List Byte} {radix : Nat} {x : Byte}
    (h : Parts c l sg px radix t) (hbase : c.base = 0 ∨ c.base = 16)
    (hs : (sign l).2 = [48, x] ++ t') (hx : IsX x) (hn : sg.length ≠ 0) :
    numberOf sg px (digitsOf radix t) = some (sg ++ [48]) := by
  have hrest := h.rest
  have hfound := h.found
  rw [found_plain (fun hc => hn hc.1)] at hfound
  obtain ⟨rfl, rfl⟩ := Prod.mk.inj hfound
  unfold numberOf
  obtain rfl : px = [] := List.append_cancel_right (hrest.symm.trans (List.nil_append _).symm)
  have hradix : IsBase (if c.base = 0 then if (sign l).2.head? = some 48 then 8 else 10
      else c.base) := by
    rw [hs]
    rcases hbase with hb | hb <;> rw [hb]
    · exact .inl rfl
    · exact .inr (.inr rfl)
  generalize (if c.base = 0 then if (sign l).2.head? = some 48 then 8 else 10 else c.base) = radix
    at hradix
  have hdigits : digitsOf radix (sign l).2 = [48] := by
    rw [hs]
    refine (digitsOf_cons ((digit_below 48 hradix).2 (.inl rfl))).trans (congrArg _ ?_)
    refine digitsOf_stop fun hc => ?_
    rcases hx with rfl | rfl
    all_goals
      have hlt : 33 < radix := of_decide_eq_true hc
      rcases hradix with h | h | h <;> omega
  rw [hdigits, if_pos (List.cons_ne_nil _ _)]
  rfl

theorem Parts.bare {c : Conversion} {l sg px t : List Byte} {radix : Nat}
    (h : Parts c l sg px radix t) (hspace : l.dropWhile isspace = l)
    (hbare : BarePrefix c.base l) : numberOf sg px (digitsOf radix t) = some (sg ++ [48]) := by
  unfold BarePrefix at hbare
  rw [hspace] at hbare
  obtain ⟨hbase, hp, hnone⟩ := hbare
  obtain ⟨x, t', hs, hx⟩ := hexPrefix_iff.1 hp
  by_cases hn : sg.length = 0
  · have hrest := h.rest
    have hfound := h.found
    rw [hn, found_hex hbase hp] at hfound
    obtain ⟨rfl, rfl⟩ := Prod.mk.inj hfound
    unfold numberOf
    rw [if_neg (not_not_intro hnone), if_pos]
    rintro rfl
    have hlen := congrArg List.length hrest
    rw [hs] at hlen
    simp only [List.length_append, List.length_cons, List.length_nil, List.length_drop] at hlen
    omega
  · exact h.zero hbase hs hx hn

theorem Parts.longest {c : Conversion} {l sg px t : List Byte} {radix : Nat}
    (h : Parts c l sg px radix t) (hspace : l.dropWhile isspace = l)
    (hhex : ¬SignHex c.base l) :
    (numberOf sg px (digitsOf radix t) = none → ∀ w, IsSubject c.base w → ¬w <+: l) ∧
      ∀ w, numberOf sg px (digitsOf radix t) = some w → Longest (IsSubject c.base) l w := by
  by_cases hbare : BarePrefix c.base l
  · rw [h.bare hspace hbare]
    refine ⟨fun hc => absurd hc (Option.some_ne_none _), fun w hw => ?_⟩
    obtain rfl := Option.some.inj hw
    exact longest_bare hspace h.split h.signed hbare
  · have hdetect := h.detect hbare hspace hhex
    unfold numberOf
    obtain ⟨hnone, hsome⟩ := longest_subject hspace h.split h.signed hbare hdetect h.rest
    by_cases hne : digitsOf radix t ≠ []
    · rw [if_pos hne]
      refine ⟨fun hc => absurd hc (Option.some_ne_none _), fun w hw => ?_⟩
      obtain rfl := Option.some.inj hw
      exact hsome hne
    · have hpx : px = [] := by
        rcases h.px with hpx | ⟨x, rfl, hx, rfl⟩
        · exact hpx
        · -- a prefix without digits is a bare one
          refine absurd ?_ hbare
          have hp : hexPrefix (sign l).2 = true := hexPrefix_iff.2 ⟨x, t, h.rest, hx⟩
          have hb : c.base = 0 ∨ c.base = 16 := by
            rcases c.isBase with h0 | h8 | h10 | h16
            · exact .inl h0
            · rw [Stdlib.detect, if_neg (by omega), if_neg (by omega)] at hdetect
              exact absurd (Prod.mk.inj hdetect).1 (by omega)
            · rw [Stdlib.detect, if_neg (by omega), if_neg (by omega)] at hdetect
              exact absurd (Prod.mk.inj hdetect).1 (by omega)
            · exact .inr h16
          rw [BarePrefix, hspace]
          refine ⟨hb, hp, ?_⟩
          rw [Stdlib.detect, if_pos ⟨hb, hp⟩] at hdetect
          rw [(Prod.mk.inj hdetect).2]
          exact not_not.1 hne
      rw [if_neg hne, if_neg (not_not_intro hpx)]
      exact ⟨fun _ => hnone (not_not.1 hne), fun w hw => absurd hw.symm (Option.some_ne_none _)⟩

/-! ### The value -/

theorem convert_congr {lim : Limits} {b b' : Nat} {w : List Byte}
    (h : detect b (sign (w.dropWhile isspace)).2 = detect b' (sign (w.dropWhile isspace)).2) :
    Stdlib.convert lim b w = Stdlib.convert lim b' w := by
  unfold Stdlib.convert
  dsimp only
  rw [h]

theorem ccfn_congr (v : Directive) {b b' : Nat} {w : List Byte}
    (h : detect b (sign (w.dropWhile isspace)).2 = detect b' (sign (w.dropWhile isspace)).2) :
    v.ccfn b w = v.ccfn b' w := by
  unfold Directive.ccfn strtol strtoul strtoq strtouq
  simp only [@convert_congr _ b b' w h]

theorem ccfn_zero (v : Directive) {neg : Bool} {sg : List Byte} (h : Signed neg sg) {b : Nat}
    (hb : b = 8 ∨ b = 16) : v.ccfn b (sg ++ [48]) = v.ccfn 0 (sg ++ [48]) := by
  unfold Directive.ccfn
  cases h <;> rcases hb with rfl | rfl <;> rfl

theorem Parts.value {v : Directive} {l sg px t w : List Byte} {radix : Nat}
    (h : Parts v.conversion l sg px radix t) (hw : numberOf sg px (digitsOf radix t) = some w) :
    v.ccfn radix w = v.ccfn v.conversion.base w := by
  have hfound := h.found
  by_cases hbase : v.conversion.base = 0
  · have hrest := h.rest
    have hprefix := h.px
    unfold numberOf at hw
    rw [hbase] at hfound ⊢
    obtain ⟨vals, hvals⟩ := exists_digits radix t
    by_cases hne : digitsOf radix t ≠ []
    · rw [if_pos hne] at hw
      obtain rfl := Option.some.inj hw
      generalize hds : digitsOf radix t = ds at *
      have hds' : ∃ c t, ds = c :: t ∧ (digit c).isSome = true := by
        cases ds with
        | nil => exact absurd rfl hne
        | cons c t =>
          cases vals with
          | nil => exact absurd hvals.1 (by simp)
          | cons d vals => exact ⟨c, t, rfl, by rw [(digits_cons.1 hvals).1.1]; rfl⟩
      have hhead : ∃ c t, px ++ ds = c :: t ∧ (digit c).isSome = true := by
        rcases hprefix with rfl | ⟨x, rfl, -⟩
        · exact hds'
        · exact ⟨48, x :: ds, rfl, by decide⟩
      refine ccfn_congr v ?_
      have hskip := @skip_append _ [] sg (px ++ ds) (fun _ h => absurd h List.not_mem_nil) h.signed
        hhead
      rw [List.nil_append] at hskip
      rw [hskip, sign_append h.signed hhead]
      dsimp only
      rcases hprefix with rfl | ⟨x, rfl, hx, h16⟩
      · have hplain : ¬(sg.length = 0 ∧ ((0 : Nat) = 0 ∨ (0 : Nat) = 16) ∧
            hexPrefix (sign l).2 = true) := by
          rintro ⟨hn, hb, hp⟩
          obtain ⟨x, t', hs, -⟩ := hexPrefix_iff.1 hp
          rw [hn, found_hex hb hp] at hfound
          rw [← (Prod.mk.inj hfound).2, hs] at hrest
          have hlen := congrArg List.length hrest
          simp only [List.length_append, List.length_cons, List.length_nil,
            List.length_drop] at hlen
          omega
        rw [found_plain hplain, if_pos rfl] at hfound
        obtain ⟨rfl, rfl⟩ := Prod.mk.inj hfound
        have hsame : ds.head? = (sign l).2.head? := by
          cases hs : (sign l).2 with
          | nil =>
            rw [hs] at hds
            exact absurd hds.symm hne
          | cons c t =>
            rw [hs] at hds
            by_cases hc : ((digit c).any fun k =>
                k < if (c :: t).head? = some 48 then 8 else 10) = true
            · rw [digitsOf_cons hc] at hds
              rw [← hds]
              rfl
            · rw [digitsOf_stop hc] at hds
              exact absurd hds.symm hne
        have hnohex : ¬hexPrefix ds = true := by
          intro hp
          have hradix : (if (sign l).2.head? = some 48 then 8 else 10) ≤ 16 := by
            split_ifs <;> decide
          have hone := @Digits.length_le_one _ ds [] vals hvals hradix (by
            rw [List.nil_append, List.append_nil]
            exact hp)
          obtain ⟨x, t, rfl, -⟩ := hexPrefix_iff.1 hp
          simp at hone
        have hdetect : ∀ b, Stdlib.detect b ds =
            if b = 0 then (if ds.head? = some 48 then 8 else 10, ds) else (b, ds) :=
          fun b => if_neg fun hc => hnohex hc.2
        have hne0 : (if (sign l).2.head? = some 48 then 8 else 10) ≠ 0 := by
          split_ifs <;> decide
        rw [List.nil_append, hdetect, hdetect, if_neg hne0, if_pos rfl, hsame]
      · have hp : hexPrefix ([48, x] ++ ds) = true := hexPrefix_iff.2 ⟨x, ds, rfl, hx⟩
        rw [h16, Stdlib.detect, if_pos ⟨.inr rfl, hp⟩, Stdlib.detect, if_pos ⟨.inl rfl, hp⟩]
    · rw [if_neg hne] at hw
      by_cases hpx : px = []
      · rw [if_neg (not_not_intro hpx)] at hw
        cases hw
      · rw [if_pos hpx] at hw
        obtain rfl := Option.some.inj hw
        obtain ⟨x, -, -, h16⟩ := hprefix.resolve_left hpx
        rw [h16]
        exact ccfn_zero v h.signed (.inr rfl)
  · have hradix : radix = v.conversion.base := by
      by_cases hp : sg.length = 0 ∧ (v.conversion.base = 0 ∨ v.conversion.base = 16) ∧
          hexPrefix (sign l).2 = true
      · rw [hp.1, found_hex hp.2.1 hp.2.2] at hfound
        exact (Prod.mk.inj hfound).1.symm.trans (hp.2.1.resolve_left hbase).symm
      · rw [found_plain hp, if_neg hbase] at hfound
        exact (Prod.mk.inj hfound).1.symm
    rw [hradix]

/-! ### A conversion -/

def report (v : Directive) (base : Nat) : Option (List Byte) → Outcome
  | none => .matchFailure
  | some w => .converted (v.store (v.ccfn base w))

section

variable {file : List Byte} {dev : Reader} {s : Istream}

theorem convert_spec {v : Directive} {buf : List Byte} {f : Flags} {o : Option (List Byte)}
    {nread : Int} (h : Scanned buf f o) (hg : Good file s) (hp : Pushable s)
    (hn : count nread 0 = nread) : ∃ s', convert v buf f nread s =
        (report v f.base o, count nread (o.getD []).length, s') ∧
      o.getD [] <+: buf ∧ s'.text file = buf.drop (o.getD []).length ++ s.text file ∧
      s'.tell = s.tell + (o.getD []).length - buf.length := by
  have hback (c : Byte) := hg.ungetc hp c
  cases h with
  | failed hd hlen =>
    unfold convert
    match buf, hlen with
    | [], _ => exact ⟨s, by simp [hn, report], List.nil_prefix, rfl, by simp⟩
    | [c], _ =>
      refine ⟨s.ungetc c, ?_, List.nil_prefix, (hback c).2.1, (hback c).2.2.trans ?_⟩
      · simp [hd, hn, report]
      · simp
  | @number w d hd hbuf hlast hx =>
    subst hbuf
    refine ⟨s, ?_, List.prefix_refl _, ?_, ?_⟩
    · unfold convert
      rw [hlast]
      dsimp only
      rw [hd, if_neg (by decide)]
      exact if_neg hx
    · simp
    · simp
  | @pushed w x hd hbuf hx =>
    subst hbuf
    refine ⟨s.ungetc x, ?_, List.prefix_append _ _, ?_, (hback x).2.2.trans ?_⟩
    · unfold convert
      rw [List.getLast?_concat, List.dropLast_concat]
      dsimp only
      rw [hd, if_neg (by decide)]
      exact if_pos hx
    · rw [(hback x).2.1]
      simp
    · simp
      omega

theorem scanInt_text (hdev : Delivers dev) (h : Good file s) {nread : Int}
    (hn : count nread 0 = nread) {turns : Nat} (hturns : (s.text file).length ≤ turns)
    (v : Directive) {ws body : List Byte} (hws : (s.text file).takeWhile isspace = ws)
    (hb : (s.text file).dropWhile isspace = body) :
    (body = [] → ∃ n s', scanInt file dev turns v nread s = some (.inputFailure, n, s') ∧
      s'.text file = []) ∧
    (body ≠ [] → ∃ buf f s', taken 0 v.conversion.flags (body.take v.limit) = (buf, f) ∧
      scanInt file dev turns v nread s = some (convert v buf f (count nread ws.length) s') ∧
      Good file s' ∧ Pushable s' ∧ body = buf ++ s'.text file ∧
      s'.tell = s.tell + ws.length + buf.length) := by
  subst hws hb
  obtain ⟨ok, s₁, hrun, htook, hok⟩ : ∃ ok s₁,
      (if 0 < s.avail then (true, s) else s.srefill file dev) = (ok, s₁) ∧ Took file s [] s₁ ∧
      (if ok then 0 < s₁.avail else s.text file = [] ∧ s₁.avail = 0) := by
    by_cases ha : 0 < s.avail
    · exact ⟨true, s, if_pos ha, h.refl, ha⟩
    · rw [if_neg ha]
      exact h.srefill hdev (by have := h.avail_nonneg; omega)
  have htext : s.text file = s₁.text file := htook.text
  unfold scanInt
  rw [hrun]
  cases ok with
  | false =>
    have hnil : s.text file = [] := hok.1
    rw [hnil]
    refine ⟨fun _ => ⟨nread, s₁, rfl, htext.symm.trans hnil⟩, fun hne => absurd rfl hne⟩
  | true =>
    obtain ⟨s₂, hskip, htook₂, hmore⟩ := skip_spec hdev turns nread s₁ hn htook.good hok
      (htext ▸ hturns)
    have hbody : s₂.text file = (s.text file).dropWhile isspace := by
      have hsplit := htook₂.text
      rw [← htext] at hsplit
      refine List.append_cancel_left (hsplit.symm.trans ?_)
      exact List.takeWhile_append_dropWhile.symm
    rw [← htext] at hskip htook₂
    simp only [Bool.not_true, Bool.false_eq_true, if_false, hskip, Option.bind_eq_bind,
      Option.bind_some]
    constructor
    · intro hnil
      rw [hnil, decide_eq_false (not_not_intro rfl)]
      exact ⟨_, s₂, rfl, hbody.trans hnil⟩
    · intro hne
      rw [decide_eq_true hne]
      obtain ⟨s₃, hrun₃, htook₃, hpush⟩ := collect_spec hdev v.limit [] v.conversion.flags s₂
        htook₂.good (hmore (hbody ▸ hne))
      rw [hbody] at hrun₃ htook₃
      simp only [Bool.not_true, Bool.false_eq_true, if_false, hrun₃, Option.bind_some,
        List.nil_append]
      refine ⟨_, _, s₃, rfl, rfl, htook₃.good, hpush, hbody.symm.trans htook₃.text, ?_⟩
      have ht₁ := htook.tell
      have ht₂ := htook₂.tell
      have ht₃ := htook₃.tell
      simp only [List.length_nil] at ht₁ ht₃
      omega

end

def Directive.field (v : Directive) (body : List Byte) : List Byte :=
  if v.width = 0 then body else body.take v.width

/-- The longest start of a subject sequence in the field is read, and its end is pushed back unless
it is one. -/
def Right (v : Directive) (file : List Byte) (nread : Int) (s : Istream)
    (r : Outcome × Int × Istream) : Prop :=
  let body := (s.text file).dropWhile isspace
  let rest := r.2.2.text file
  if body = [] then r.1 = .inputFailure ∧ rest = []
  else ∃ u, Longest (Viable v.conversion.base) (v.field body) u ∧
    ((∃ w, Longest (IsSubject v.conversion.base) u w ∧
        r.1 = .converted (v.store (v.ccfn v.conversion.base w)) ∧ rest = body.drop w.length ∧
        r.2.1 = nread + (r.2.2.tell - s.tell)) ∨
      (∀ w, IsSubject v.conversion.base w → ¬w <+: u) ∧ r.1 = .matchFailure ∧ rest = body)

/-- No sign stands before an `x` or a prefix, and the number fits into the buffer and into the
count. -/
structure Fits (v : Directive) (nread : Int) (t : List Byte) : Prop where
  signX : ¬(v.conversion = .x ∧ SignX ((t.dropWhile isspace).take v.limit))
  signHex : ¬SignHex v.conversion.base (v.field (t.dropWhile isspace))
  fits : ∀ w, IsSubject v.conversion.base w → w <+: v.field (t.dropWhile isspace) →
    w.length ≤ v.limit ∧ nread + ((t.takeWhile isspace).length + w.length) < 2 ^ 31

theorem subject_zero (c : Conversion) : IsSubject c.base [48] := by
  have hvals : ∀ radix, 0 < radix → Digits radix [48] [0] := fun radix h =>
    ⟨rfl, fun d hd => by rw [List.mem_singleton.1 hd]; exact h⟩
  rcases c.isBase with hb | hb
  · rw [hb]
    exact ⟨_, _, @Subject.intro 0 [] [] [] [48] _ 8 [0] (fun _ h => absurd h List.not_mem_nil) .none
      (.octal rfl rfl) (List.cons_ne_nil _ _) (hvals 8 (by decide))⟩
  · have hne : c.base ≠ 0 := by
      rcases hb with h | h | h <;> omega
    exact ⟨_, _, @Subject.intro c.base [] [] [] [48] _ c.base [0]
      (fun _ h => absurd h List.not_mem_nil) .none (.given hne) (List.cons_ne_nil _ _)
      (hvals c.base (Nat.pos_of_ne_zero hne))⟩

theorem longest_start {c : Conversion} {field : List Byte} (p : List Byte → Prop) (q : Prop) :
    (∃ u, Longest (Viable c.base) field u ∧ ((∃ w, Longest (IsSubject c.base) u w ∧ p w) ∨
        (∀ w, IsSubject c.base w → ¬w <+: u) ∧ q)) ↔
      (∃ w, Longest (IsSubject c.base) field w ∧ p w) ∨
        (∀ w, IsSubject c.base w → ¬w <+: field) ∧ q := by
  have hin : ∀ {u w}, Longest (Viable c.base) field u → IsSubject c.base w → w <+: field →
      w <+: u := fun hu hw hpre => List.prefix_of_prefix_length_le hpre hu.2.1
    (hu.2.2 _ ⟨[], by rwa [List.append_nil]⟩ hpre)
  constructor
  · rintro ⟨u, hu, ⟨w, hw, hp⟩ | ⟨hnone, hq⟩⟩
    · exact .inl ⟨w, ⟨hw.1, hw.2.1.trans hu.2.1, fun w' hw' hpre =>
        hw.2.2 w' hw' (hin hu hw' hpre)⟩, hp⟩
    · exact .inr ⟨fun w hw hpre => hnone w hw (hin hu hw hpre), hq⟩
  · have hnil : Viable c.base [] := ⟨[48], subject_zero c⟩
    obtain ⟨u, hu⟩ := longest_exists hnil field
    rintro (⟨w, hw, hp⟩ | ⟨hnone, hq⟩)
    · exact ⟨u, hu, .inl ⟨w, ⟨hw.1, hin hu hw.1 hw.2.1, fun w' hw' hpre =>
        hw.2.2 w' hw' (hpre.trans hu.2.1)⟩, hp⟩⟩
    · exact ⟨u, hu, .inr ⟨fun w hw hpre => hnone w hw (hpre.trans hu.2.1), hq⟩⟩

theorem limit_le (v : Directive) (h : v.width ≠ 0) : v.limit ≤ v.width := by
  unfold Directive.limit bufSize
  dsimp only
  split_ifs with hw
  · rcases hw with hw | hw
    · omega
    · omega
  · exact Nat.mod_le _ _

theorem take_field (v : Directive) (body : List Byte) : body.take v.limit <+: v.field body := by
  unfold Directive.field
  split_ifs with hw
  · exact List.take_prefix _ _
  · exact List.take_prefix_take_left (limit_le v hw)

theorem field_body (v : Directive) (body : List Byte) : v.field body <+: body := by
  unfold Directive.field
  split_ifs
  · exact List.prefix_refl _
  · exact List.take_prefix _ _

theorem SignHex.subject {base : Nat} {l : List Byte} (h : SignHex base l) :
    ∃ w, IsSubject base w ∧ w <+: l ∧ w.length = 4 := by
  obtain ⟨hbase, d, x, k, t, rfl, hd, hx, hk⟩ := h
  refine ⟨[d, 48, x, k], ?_, ⟨t, rfl⟩, rfl⟩
  cases hv : digit k with
  | none =>
    rw [hv] at hk
    cases hk
  | some val =>
    rw [hv] at hk
    have hdigits : Digits 16 [k] [val] := digits_cons.2 ⟨⟨hv, of_decide_eq_true hk⟩, digits_nil⟩
    rcases hd with rfl | rfl
    · exact ⟨_, _, @Subject.intro base [] [43] [48, x] [k] _ 16 [val]
        (fun _ h => absurd h List.not_mem_nil) .plus (.hex hbase hx) (List.cons_ne_nil _ _) hdigits⟩
    · exact ⟨_, _, @Subject.intro base [] [45] [48, x] [k] _ 16 [val]
        (fun _ h => absurd h List.not_mem_nil) .minus (.hex hbase hx) (List.cons_ne_nil _ _)
        hdigits⟩

theorem SignHex.of_prefix {base : Nat} {l l' : List Byte} (h : SignHex base l) (hpre : l <+: l') :
    SignHex base l' := by
  obtain ⟨hbase, d, x, k, t, rfl, hd, hx, hk⟩ := h
  obtain ⟨r, rfl⟩ := hpre
  exact ⟨hbase, d, x, k, t ++ r, rfl, hd, hx, hk⟩

theorem SignHex.take {base n : Nat} {l : List Byte} (h : SignHex base l) (hn : 4 ≤ n) :
    SignHex base (l.take n) := by
  obtain ⟨hbase, d, x, k, t, rfl, hd, hx, hk⟩ := h
  obtain ⟨n, rfl⟩ := Nat.exists_eq_add_of_le' hn
  exact ⟨hbase, d, x, k, t.take n, rfl, hd, hx, hk⟩

theorem count_small {nread : Int} {n : Nat} (h0 : 0 ≤ nread) (h : nread + n < 2 ^ 31) :
    count nread n = nread + n := by
  unfold count
  rw [Int.bmod_eq_of_le] <;> omega

theorem count_lt (nread : Int) (n : Nat) : count nread n < 2 ^ 31 := by
  have h := @Int.bmod_lt (nread + n) (2 ^ 32) (by decide)
  exact h

theorem taken_signX {d x : Byte} {t : List Byte} (hd : IsSign d) (hx : IsX x) :
    ∃ f, taken 0 Conversion.x.flags (d :: x :: t) = (d :: x :: digitsOf 16 t, f) ∧
      f.ndigits = (digitsOf 16 t).isEmpty := by
  obtain ⟨f, hrun, -, hnd⟩ := taken_digits t 2 ⟨16, false, true, true, false⟩ (.inr (.inr rfl)) rfl
    (by decide) (.inl rfl)
  have hsign : legal 0 d Conversion.x.flags = some ⟨16, false, true, true, true⟩ := by
    rcases hd with rfl | rfl <;> rfl
  have hpfx : legal 1 x ⟨16, false, true, true, true⟩ = some ⟨16, false, true, true, false⟩ := by
    rcases hx with rfl | rfl <;> rfl
  refine ⟨f, ?_, hnd.trans (Bool.true_and _)⟩
  rw [taken, hsign]
  dsimp only
  rw [taken, hpfx]
  dsimp only
  rw [hrun]

theorem not_subject_signX {l : List Byte} (hspace : l.dropWhile isspace = l) (h : SignX l) :
    ∀ w, IsSubject 16 w → ¬w <+: l := by
  obtain ⟨d, x, t, rfl, hd, hx⟩ := h
  have hsign : ∃ neg, sign (d :: x :: t) = (neg, x :: t) ∧ Signed neg [d] := by
    rcases hd with rfl | rfl
    · exact ⟨false, rfl, .plus⟩
    · exact ⟨true, rfl, .minus⟩
  obtain ⟨neg, hsign, hsigned⟩ := hsign
  have hp : ¬hexPrefix (x :: t) = true := by
    intro hp
    rcases hx with rfl | rfl <;> exact absurd (hexPrefix_cons.1 hp).1 (by decide)
  have hdetect : Stdlib.detect 16 (x :: t) = (16, x :: t) :=
    (if_neg fun hc => hp hc.2).trans (if_neg (by decide))
  have hbare : ¬BarePrefix 16 (d :: x :: t) := by
    rw [BarePrefix, hspace, hsign]
    exact fun hc => hp hc.2.1
  refine (@longest_subject 16 16 (d :: x :: t) [d] [] (x :: t) hspace (by rw [hsign]; rfl)
    (by rw [hsign]; exact hsigned) hbare (by rw [hsign, hdetect]) (by rw [hsign]; rfl)).1
    (digitsOf_stop fun hc => ?_)
  rcases hx with rfl | rfl <;> exact absurd (of_decide_eq_true hc : 33 < 16) (by decide)

theorem IsSubject.ne_nil {base : Nat} (h : IsSubject base []) : False := by
  obtain ⟨neg, n, h⟩ := h
  generalize hu : [] = u at h
  cases h with
  | intro hsp hsg hradix hne hdigits =>
    simp only [List.nil_eq, List.append_eq_nil_iff] at hu
    exact hne hu.2.2.2

theorem dropWhile_prefix {c : Byte} {t l : List Byte} (hc : isspace c = false)
    (hpre : l <+: c :: t) : l.dropWhile isspace = l := by
  cases l with
  | nil => rfl
  | cons d l =>
    obtain rfl : d = c := (List.cons_prefix_cons.1 hpre).1
    exact List.dropWhile_cons_of_neg (by rw [hc]; decide)

section

variable {file : List Byte} {dev : Reader} {s : Istream}

theorem wrong_signX {v : Directive} {body buf : List Byte} {f : Flags} {s' : Istream} {n : Int}
    (ht : taken 0 Conversion.x.flags (body.take v.limit) = (buf, f))
    (hspace : (v.field body).dropWhile isspace = v.field body) (hgood : Good file s')
    (hpush : Pushable s') (hx : SignX (body.take v.limit)) (htext : body = buf ++ s'.text file) :
    (∀ w, IsSubject 16 w → ¬w <+: v.field body) ∧ ¬((convert v buf f n s').1 = .matchFailure ∧
      (convert v buf f n s').2.2.text file = body) := by
  obtain ⟨d, x, t, hshort, hd, hx⟩ := hx
  obtain ⟨f', htaken, hnd⟩ := @taken_signX d x t hd hx
  rw [hshort, htaken] at ht
  obtain ⟨rfl, rfl⟩ := Prod.mk.inj ht
  refine ⟨not_subject_signX hspace ?_, ?_⟩
  · obtain ⟨rest, hrest⟩ := take_field v body
    rw [hshort] at hrest
    exact ⟨d, x, t ++ rest, hrest.symm, hd, hx⟩
  · unfold convert
    by_cases hnil : digitsOf 16 t = []
    · rw [hnil] at hnd htext ⊢
      have hlast : [d, x].getLast? = some x := rfl
      rw [hlast]
      dsimp only
      rw [hnd, if_pos List.isEmpty_nil, (hgood.ungetc hpush x).2.1]
      rintro ⟨-, hbody⟩
      have hlen := congrArg List.length (hbody.trans htext)
      simp at hlen
    · rw [List.isEmpty_eq_false_iff.2 hnil] at hnd
      cases hlast : (d :: x :: digitsOf 16 t).getLast? with
      | none => exact absurd (List.getLast?_eq_none_iff.1 hlast) (List.cons_ne_nil _ _)
      | some c =>
        dsimp only
        rw [hnd, if_neg (by decide)]
        split_ifs
        · exact fun hc => absurd hc.1 (by simp)
        · exact fun hc => absurd hc.1 (by simp)

theorem number_iff {v : Directive} {body sg px t : List Byte} {nread : Int} {skipped radix : Nat}
    {o : Option (List Byte)} (h0 : 0 ≤ nread)
    (hspace : (body.take v.limit).dropWhile isspace = body.take v.limit)
    (hparts : Parts v.conversion (body.take v.limit) sg px radix t)
    (ho : numberOf sg px (digitsOf radix t) = o)
    (hlimit : (o.getD []).length ≤ v.limit) (hbody : (o.getD []).length ≤ body.length)
    {base : Nat} (hbase : o.isSome = true → base = radix) :
    (∃ w, Longest (IsSubject v.conversion.base) (v.field body) w ∧
        report v base o = .converted (v.store (v.ccfn v.conversion.base w)) ∧
        body.drop (o.getD []).length = body.drop w.length ∧
        count nread (skipped + (o.getD []).length) = nread + (skipped + (o.getD []).length : Nat)) ∨
      (∀ w, IsSubject v.conversion.base w → ¬w <+: v.field body) ∧
        report v base o = .matchFailure ∧ body.drop (o.getD []).length = body ↔
    ¬SignHex v.conversion.base (v.field body) ∧ ∀ w, IsSubject v.conversion.base w →
      w <+: v.field body → w.length ≤ v.limit ∧ nread + (skipped + w.length) < 2 ^ 31 := by
  have hshort := take_field v body
  have hfield := field_body v body
  constructor
  · rintro (⟨w, hw, hreport, hrest, hcount⟩ | ⟨hnone, -⟩)
    · cases o with
      | none => cases hreport
      | some w₀ =>
        have hlen : w₀.length = w.length := by
          have hwbody := (hw.2.1.trans hfield).length_le
          have hdrop := congrArg List.length hrest
          rw [Option.getD_some] at hbody hdrop
          rw [List.length_drop, List.length_drop] at hdrop
          omega
        rw [Option.getD_some, hlen] at hlimit hcount
        refine ⟨fun hhex => ?_, fun u hu hpre => ?_⟩
        · -- only the zero is read behind the sign, but the number has four characters or more
          obtain ⟨u, hu, hpre, hu4⟩ := hhex.subject
          have hle := hw.2.2 u hu hpre
          have hhex' : SignHex v.conversion.base (body.take v.limit) := by
            have htake := hhex.take (show 4 ≤ v.limit by omega)
            refine htake.of_prefix (List.prefix_take_iff.2
              ⟨(List.take_prefix _ _).trans hfield, ?_⟩)
            exact List.length_take_le _ _
          obtain ⟨hb, d, x, k, t, hl, hd, hx, hk⟩ := hhex'
          have hsign : (sign (body.take v.limit)).2 = [48, x] ++ k :: t := by
            rw [hl]
            rcases hd with rfl | rfl <;> rfl
          have hone : sg.length = 1 := by
            have hsplit := congrArg List.length hparts.split
            rw [hsign, hl] at hsplit
            simp only [List.length_append, List.length_cons, List.length_nil] at hsplit
            omega
          have hzero := hparts.zero hb hsign hx (by omega)
          rw [ho] at hzero
          obtain rfl := Option.some.inj hzero
          rw [List.length_append, hone] at hlen
          simp only [List.length_cons, List.length_nil] at hlen
          omega
        · have hle := hw.2.2 u hu hpre
          have hlt := count_lt nread (skipped + w.length)
          rw [hcount] at hlt
          push_cast at hlt
          exact ⟨by omega, by omega⟩
    · refine ⟨fun hhex => ?_, fun u hu hpre => absurd hpre (hnone u hu)⟩
      obtain ⟨u, hu, hpre, -⟩ := hhex.subject
      exact hnone u hu hpre
  · rintro ⟨hhex, hfits⟩
    obtain ⟨hnone, hsome⟩ := hparts.longest hspace fun h => hhex (h.of_prefix hshort)
    cases o with
    | none =>
      refine .inr ⟨fun w hw hpre => hnone ho w hw ?_, rfl, rfl⟩
      exact List.prefix_take_iff.2 ⟨hpre.trans hfield, (hfits w hw hpre).1⟩
    | some w =>
      have hlong := (hsome w ho).of_take hshort hfield fun u hu hpre => (hfits u hu hpre).1
      refine .inl ⟨w, hlong, ?_, rfl, ?_⟩
      · rw [report, hbase rfl, hparts.value ho]
      · refine count_small h0 ?_
        have hlt := (hfits w hlong.1 hlong.2.1).2
        rw [Option.getD_some]
        push_cast
        exact hlt

theorem scanInt_iff (hdev : Delivers dev) (h : Good file s) {nread : Int} (h0 : 0 ≤ nread)
    (h1 : nread < 2 ^ 31) {turns : Nat} (hturns : (s.text file).length ≤ turns) (v : Directive) :
    ∃ r, scanInt file dev turns v nread s = some r ∧
      (Right v file nread s r ↔ Fits v nread (s.text file)) := by
  have hn : count nread 0 = nread := (count_small h0 (by simpa using h1)).trans (by simp)
  unfold Right
  generalize hws : (s.text file).takeWhile isspace = ws
  generalize hb : (s.text file).dropWhile isspace = body
  obtain ⟨hempty, hother⟩ := scanInt_text hdev h hn hturns v hws hb
  have hfits : Fits v nread (s.text file) ↔ ¬(v.conversion = .x ∧ SignX (body.take v.limit)) ∧
      ¬SignHex v.conversion.base (v.field body) ∧ ∀ w, IsSubject v.conversion.base w →
        w <+: v.field body → w.length ≤ v.limit ∧ nread + (ws.length + w.length) < 2 ^ 31 := by
    subst hws hb
    exact ⟨fun ⟨hx, hhex, hfits⟩ => ⟨hx, hhex, hfits⟩, fun ⟨hx, hhex, hfits⟩ => ⟨hx, hhex, hfits⟩⟩
  rw [hfits]
  by_cases hbody : body = []
  · -- there is nothing but white space
    subst hbody
    obtain ⟨n, s', hrun, hrest⟩ := hempty rfl
    have hfield : v.field [] = [] := by
      unfold Directive.field
      split_ifs
      · rfl
      · exact List.take_nil
    refine ⟨_, hrun, iff_of_true ?_ ⟨?_, ?_, fun w hw hpre => ?_⟩⟩
    · dsimp only
      rw [if_pos rfl]
      exact ⟨rfl, hrest⟩
    · rw [List.take_nil]
      rintro ⟨-, d, x, t, hnil, -⟩
      cases hnil
    · rw [hfield]
      rintro ⟨-, d, x, k, t, hnil, -⟩
      cases hnil
    · rw [hfield] at hpre
      obtain rfl := List.prefix_nil.1 hpre
      exact hw.ne_nil.elim
  · obtain ⟨buf, f, s', ht, hrun, hgood, hpush, htext, htell⟩ := hother hbody
    refine ⟨_, hrun, ?_⟩
    dsimp only
    rw [if_neg hbody, longest_start]
    have hstart : ∀ l, l <+: body → l.dropWhile isspace = l := by
      intro l hl
      have hhead := List.head?_dropWhile_not isspace (s.text file)
      rw [hb] at hhead
      cases body with
      | nil => exact absurd rfl hbody
      | cons c t => exact dropWhile_prefix (by simpa using hhead) hl
    have hfield : v.field body <+: body := field_body v body
    by_cases hsx : v.conversion = .x ∧ SignX (body.take v.limit)
    · refine iff_of_false ?_ fun hfits => hfits.1 hsx
      rw [hsx.1] at ht ⊢
      obtain ⟨hnone, hwrong⟩ := @wrong_signX _ v _ _ _ _ (count nread ws.length) ht
        (hstart _ hfield) hgood hpush hsx.2 htext
      rintro (⟨w, hw, -⟩ | ⟨-, hfail, hrest⟩)
      · exact hnone w hw.1 hw.2.1
      · exact hwrong ⟨hfail, hrest⟩
    · obtain ⟨sg, px, radix, t, o, hparts, ho, hpre, hscanned, hbase⟩ := scanned_field ht hsx
      obtain ⟨s'', hconvert, hk, hrest, htell'⟩ := @convert_spec _ _ v _ _ _ _ hscanned hgood hpush
        (count_add nread ws.length 0)
      have hkbuf := hk.length_le
      have hlimit := hkbuf.trans (hpre.length_le.trans (List.length_take_le _ _))
      have hkbody := hkbuf.trans (hpre.length_le.trans (List.length_take_le' _ _))
      have hdrop : s''.text file = body.drop (o.getD []).length := by
        rw [hrest, ← List.drop_append_of_le_length hkbuf, ← htext]
      have htell'' : s''.tell - s.tell = (ws.length + (o.getD []).length : Nat) := by
        push_cast
        omega
      rw [hconvert]
      dsimp only
      rw [hdrop, htell'', count_add, and_iff_right hsx]
      refine number_iff h0 (hstart _ ((take_field v body).trans hfield)) hparts ho hlimit hkbody
        fun hsome => hbase ?_
      cases hscanned with
      | failed => cases hsome
      | number hd => exact hd
      | pushed hd => exact hd

end

/-! ### Scansets -/

/-- The ranges listed behind the character `c`, and what follows the scanset. A `-` before a bracket
or before a character that is not greater than the last one stands for itself. -/
def ranges : Byte → List Byte → List (Byte × Byte) × List Byte
  | _, [] => ([], [])
  | c, n :: fmt =>
    if n = 45 then
      match fmt with
      | [] => ([(45, 45)], [])
      | n :: rest =>
        if n = 93 ∨ n ≤ c then ((45, 45) :: (ranges 45 (n :: rest)).1, (ranges 45 (n :: rest)).2)
        else ((c, n) :: (ranges n rest).1, (ranges n rest).2)
    else if n = 93 then ([], fmt)
    else ((n, n) :: (ranges n fmt).1, (ranges n fmt).2)
termination_by _ fmt => fmt.length

/-- No `-` stands between two equal characters of which the first could begin a range. -/
def proper : Byte → List Byte → Bool
  | _, [] => true
  | c, n :: fmt =>
    if n = 45 then
      match fmt with
      | [] => true
      | n :: rest =>
        if n = 93 ∨ n < c then proper 45 (n :: rest) else n ≠ c && proper n rest
    else if n = 93 then true
    else proper n fmt
termination_by _ fmt => fmt.length

def Listed (rs : List (Byte × Byte)) (k : Nat) : Prop := ∃ r ∈ rs, r.1.toNat ≤ k ∧ k ≤ r.2.toNat

theorem listed_cons {r : Byte × Byte} {rs : List (Byte × Byte)} {k : Nat} :
    Listed (r :: rs) k ↔ (r.1.toNat ≤ k ∧ k ≤ r.2.toNat) ∨ Listed rs k := by
  unfold Listed
  rw [List.exists_mem_cons_iff]

theorem doswitch_spec (c : Byte) (fmt : List Byte) (h : proper c fmt = true) :
    (doswitch c.toNat fmt).2 = (ranges c fmt).2 ∧ ∀ k,
      (k = c.toNat ∨ k ∈ (doswitch c.toNat fmt).1) ↔ k = c.toNat ∨ Listed (ranges c fmt).1 k := by
  have hself : ∀ (n : Byte) (k : Nat), (n.toNat ≤ k ∧ k ≤ n.toNat) ↔ k = n.toNat := by
    intro n k
    omega
  have hnil : ∀ k, ¬Listed [] k := fun k ⟨r, hr, _⟩ => absurd hr List.not_mem_nil
  fun_induction ranges c fmt with
  | case1 c =>
    rw [doswitch]
    exact ⟨rfl, fun k => by simp [hnil]⟩
  | case2 c =>
    rw [doswitch, if_pos rfl]
    refine ⟨rfl, fun k => ?_⟩
    rw [listed_cons, hself]
    simp [hnil]
  | case3 c n rest hn ih =>
    rw [proper, if_pos rfl] at h
    have hlt : n = 93 ∨ n < c := by
      -- a character that is not greater is smaller, since it is not the same
      by_contra hnot
      rw [if_neg hnot, Bool.and_eq_true, decide_eq_true_eq] at h
      obtain ⟨h93, hlt⟩ := not_or.1 hnot
      have hle := hn.resolve_left h93
      exact h.1 (UInt8.le_antisymm hle (UInt8.not_lt.1 hlt))
    rw [if_pos hlt] at h
    obtain ⟨hrest, hset⟩ := ih h
    rw [doswitch, if_pos rfl]
    dsimp only
    rw [if_pos (hlt.imp_right UInt8.lt_iff_toNat_lt.1)]
    refine ⟨hrest, fun k => ?_⟩
    rw [List.mem_cons, listed_cons, hself]
    exact or_congr_right (hset k)
  | case4 c n rest hn ih =>
    rw [proper, if_pos rfl] at h
    obtain ⟨h93, hle⟩ := not_or.1 hn
    have hlt : c.toNat < n.toNat := UInt8.lt_iff_toNat_lt.1 (UInt8.not_le.1 hle)
    rw [if_neg (not_or.2 ⟨h93, fun hc => absurd (UInt8.lt_iff_toNat_lt.1 hc) (by omega)⟩),
      Bool.and_eq_true] at h
    obtain ⟨hrest, hset⟩ := ih h.2
    rw [doswitch, if_pos rfl]
    dsimp only
    rw [if_neg (not_or.2 ⟨h93, by omega⟩), Nat.max_eq_right hlt]
    refine ⟨hrest, fun k => ?_⟩
    have hfill : k ∈ fillRange c.toNat n.toNat ↔ c.toNat < k ∧ k ≤ n.toNat := by
      rw [fillRange, List.mem_range'_1]
      omega
    rw [List.mem_append, hfill, listed_cons]
    have hk := hset k
    dsimp only
    constructor
    · rintro (hc | hc | hc)
      · exact .inl hc
      · exact .inr (.inl ⟨hc.1.le, hc.2⟩)
      · rcases hk.1 (.inr hc) with hn | hn
        · exact .inr (.inl ⟨by omega, by omega⟩)
        · exact .inr (.inr hn)
    · rintro (hc | hc | hc)
      · exact .inl hc
      · by_cases hck : k = c.toNat
        · exact .inl hck
        · exact .inr (.inl ⟨by omega, hc.2⟩)
      · rcases hk.2 (.inr hc) with hn | hn
        · exact .inr (.inl ⟨by omega, by omega⟩)
        · exact .inr (.inr hn)
  | case5 c fmt hn =>
    rw [doswitch.eq_def]
    dsimp only
    rw [if_neg hn, if_pos rfl]
    exact ⟨rfl, fun k => by simp [hnil]⟩
  | case6 c n fmt hn hn' ih =>
    rw [proper.eq_def] at h
    dsimp only at h
    rw [if_neg hn, if_neg hn'] at h
    obtain ⟨hrest, hset⟩ := ih h
    rw [doswitch.eq_def]
    dsimp only
    rw [if_neg hn, if_neg hn']
    refine ⟨hrest, fun k => ?_⟩
    rw [List.mem_cons, listed_cons, hself]
    exact or_congr_right (hset k)

def list (fmt : List Byte) : List Byte := if fmt.head? = some 94 then fmt.tail else fmt

def listing (fmt : List Byte) : List (Byte × Byte) × List Byte :=
  match list fmt with
  | [] => ([], [])
  | c :: fmt => ((c, c) :: (ranges c fmt).1, (ranges c fmt).2)

def Proper (fmt : List Byte) : Prop :=
  ∀ c rest, list fmt = c :: rest → proper c rest = true

def Tabulated (fmt : List Byte) : Prop :=
  (∀ k ∈ (sccl fmt).2.1, k < 256) ∧ (sccl fmt).2.2 = (listing fmt).2 ∧
    ∀ c : Byte, accepts fmt c = true ↔
      if fmt.head? = some 94 then ¬Listed (listing fmt).1 c.toNat
      else Listed (listing fmt).1 c.toNat

theorem sccl_eq (fmt : List Byte) : sccl fmt = (decide (fmt.head? = some 94),
    match list fmt with
    | [] => ([], [])
    | c :: fmt => (c.toNat :: (doswitch c.toNat fmt).1, (doswitch c.toNat fmt).2)) := by
  unfold sccl list
  by_cases hat : fmt.head? = some 94
  · rw [if_pos hat, if_pos hat, decide_eq_true hat]
    dsimp only
    cases fmt.tail <;> rfl
  · rw [if_neg hat, if_neg hat, decide_eq_false hat]
    dsimp only
    cases fmt <;> rfl

theorem sccl_tabulated {fmt : List Byte} (h : Proper fmt) : Tabulated fmt := by
  have hset : (sccl fmt).2.2 = (listing fmt).2 ∧
      ∀ k, k ∈ (sccl fmt).2.1 ↔ Listed (listing fmt).1 k := by
    rw [sccl_eq]
    unfold listing
    cases hl : list fmt with
    | nil => exact ⟨rfl, fun k => ⟨fun hk => absurd hk List.not_mem_nil,
        fun ⟨r, hr, _⟩ => absurd hr List.not_mem_nil⟩⟩
    | cons c rest =>
      obtain ⟨hrest, hset⟩ := doswitch_spec c rest (h c rest hl)
      refine ⟨hrest, fun k => ?_⟩
      rw [List.mem_cons, listed_cons, hset k]
      exact or_congr_left ⟨fun hk => ⟨hk.ge, hk.le⟩, fun hk => Nat.le_antisymm hk.2 hk.1⟩
  refine ⟨fun k hk => ?_, hset.1, fun c => ?_⟩
  · obtain ⟨r, -, -, hle⟩ := (hset.2 k).1 hk
    exact Nat.lt_of_le_of_lt hle r.2.toNat_lt
  · have hneg : (sccl fmt).1 = decide (fmt.head? = some 94) := by rw [sccl_eq]
    unfold accepts
    rw [← hset.2, hneg]
    by_cases hat : fmt.head? = some 94
    · rw [decide_eq_true hat, if_pos hat]
      split <;> simp_all
    · rw [decide_eq_false hat, if_neg hat]
      split <;> simp_all

/-- Integers are scanned as by `strtol` if and only if they fit, and a scanset accepts what it
lists if no range has equal ends. -/
theorem vfscanf_iff {file : List Byte} {dev : Reader} {s : Istream} (hdev : Delivers dev)
    (h : Good file s) {nread : Int} (h0 : 0 ≤ nread) (h1 : nread < 2 ^ 31) {turns : Nat}
    (hturns : (s.text file).length ≤ turns) (v : Directive) (fmt : List Byte) :
    (∃ r, scanInt file dev turns v nread s = some r ∧
      (Right v file nread s r ↔ Fits v nread (s.text file))) ∧
    (Proper fmt → Tabulated fmt) :=
  ⟨scanInt_iff hdev h h0 h1 hturns v, sccl_tabulated⟩

def plain (c : Conversion) : Directive := ⟨false, false, false, false, 0, c⟩

theorem opened_fourBytes (file : List Byte) : Good file (fourBytes false 0) :=
  (@Opened.agrees file _
    ⟨by decide, by decide, by decide, by decide, by decide, rfl, rfl, rfl⟩).good

/-- The text ` 12x` for `%d`, read three bytes at a time, and `[a-c]`. -/
theorem vfscanf_twelve :
    (∃ r, scanInt [32, 49, 50, 120] (fun _ n => min n 3) 4 (plain .d) 0 (fourBytes false 0) =
        some r ∧ Right (plain .d) [32, 49, 50, 120] 0 (fourBytes false 0) r) ∧
      Tabulated [97, 45, 99, 93] := by
  have hdev : Delivers fun _ n => min n 3 := fun _ n hn =>
    ⟨lt_min hn (by decide), min_le_left n 3⟩
  obtain ⟨⟨r, hrun, hright⟩, hset⟩ := vfscanf_iff hdev (opened_fourBytes [32, 49, 50, 120])
    (Int.le_refl 0) (by decide)
    (show ((fourBytes false 0).text [32, 49, 50, 120]).length ≤ 4 by decide) (plain .d)
    [97, 45, 99, 93]
  refine ⟨⟨r, hrun, hright.2 ⟨fun h => absurd h.1 (by decide), fun h => absurd h.1 (by decide),
    fun w _ hpre => ?_⟩⟩, hset fun c rest hl => ?_⟩
  · have hle := hpre.length_le
    have htext : ((fourBytes false 0).text [32, 49, 50, 120]).dropWhile isspace =
        [49, 50, 120] := by decide
    have hskip : ((fourBytes false 0).text [32, 49, 50, 120]).takeWhile isspace = [32] := by decide
    have hlimit : (plain .d).limit = 512 := by decide
    rw [htext] at hle
    rw [hskip, hlimit]
    change w.length ≤ 3 at hle
    rw [List.length_singleton]
    exact ⟨by omega, by omega⟩
  · obtain ⟨rfl, rfl⟩ := List.cons.inj hl
    decide +kernel

/-- Of `+0x1` only the `+0` is read for `%x`; the scanset `[a-a]` has a `b`, and for the last
character something is stored behind the table. -/
theorem vfscanf_signed_hex :
    (∃ r, scanInt [43, 48, 120, 49] (fun _ n => n) 4 (plain .x) 0 (fourBytes false 0) = some r ∧
      ¬Right (plain .x) [43, 48, 120, 49] 0 (fourBytes false 0) r) ∧
    accepts [97, 45, 97, 93] 98 = true ∧ 256 ∈ (sccl [255, 45, 255, 93]).2.1 := by
  have hdev : Delivers fun _ n => n := fun _ n hn => ⟨hn, Nat.le_refl n⟩
  obtain ⟨r, hrun, hright⟩ := scanInt_iff hdev
    (opened_fourBytes [43, 48, 120, 49]) (Int.le_refl 0) (by decide)
    (show ((fourBytes false 0).text [43, 48, 120, 49]).length ≤ 4 by decide) (plain .x)
  refine ⟨⟨r, hrun, fun hr => ?_⟩, by decide +kernel, by decide +kernel⟩
  refine (hright.1 hr).signHex ⟨.inr rfl, 43, 120, 49, [], ?_, .inl rfl, .inl rfl, by decide⟩
  decide

end Bsdi.Scanf
