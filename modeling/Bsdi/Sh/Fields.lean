import Bsdi.Sh.Marks
import Bsdi.Lib.Splitting

/-!
# Field splitting

The regions that `argstr` records in its string, and what `ifsbreakup` makes of them: it is the
splitter of `Lib.Splitting` that looks at one stretch at a time.
-/

namespace Bsdi.Sh.Param

open Lib.Splitting

variable {α : Type} {ifs s : List Byte}

/-! ### One region -/

theorem slice_append {a b c : Nat} (hab : a ≤ b) (hbc : b ≤ c) :
    slice s a c = slice s a b ++ slice s b c := by
  have hdrop : (s.drop a).drop (b - a) = s.drop b := by
    rw [List.drop_drop, Nat.add_sub_cancel' hab]
  rw [slice, slice, slice, ← hdrop, show c - a = (b - a) + (c - b) by omega, List.take_add]

theorem slice_self (a : Nat) : slice s a a = [] := by simp [slice]

theorem slice_of_drop {p : Nat} {l t : List Byte} (h : s.drop p = l ++ t) :
    slice s p (p + l.length) = l := by
  rw [slice, h, Nat.add_sub_cancel_left, List.take_left]

theorem drop_add {p : Nat} {l t : List Byte} (h : s.drop p = l ++ t) :
    s.drop (p + l.length) = t := by
  rw [← List.drop_drop, h, List.drop_left]

theorem getD_of_drop {p : Nat} {c : Byte} {t : List Byte} (h : s.drop p = c :: t) :
    s.getD p 0 = c := by
  have : s[p]? = some c := by
    rw [← Nat.add_zero p, ← List.getElem?_drop, h]
    rfl
  rw [List.getD_eq_getElem?_getD, this]
  rfl

/-- A symbol of the string: a byte of `IFS`, or a character of the text. -/
def Fits (ifs : List Byte) : Sym Byte → Prop
  | .text b _ => (∃ c, b = [c] ∧ c ∉ ifs ∧ c ≠ ctlesc) ∨ ∃ c, b = [ctlesc, c]
  | .white c => c ∈ ifs ∧ c ≠ ctlesc ∧ nonwhite c = false
  | .other c => c ∈ ifs ∧ c ≠ ctlesc ∧ nonwhite c = true

def bytes (us : List (Sym Byte)) : List Byte := us.flatMap Sym.bytes

@[simp] theorem bytes_cons (u : Sym Byte) (us : List (Sym Byte)) :
    bytes (u :: us) = u.bytes ++ bytes us := rfl

/-- What `skipifs` leaves. -/
def skipSyms : Bool → List (Sym Byte) → List (Sym Byte)
  | seen, .white _ :: us => skipSyms seen us
  | false, .other _ :: us => skipSyms true us
  | _, us => us

theorem skipifs_syms (hesc : ctlesc ∉ ifs) (us : List (Sym Byte)) (hus : ∀ u ∈ us, Fits ifs u)
    (seen : Bool) (p : Nat) {t : List Byte} (h : s.drop p = bytes us ++ t) :
    ∃ q, skipifs ifs s seen (bytes us).length p = q ∧ p ≤ q ∧
      q + (bytes (skipSyms seen us)).length = p + (bytes us).length ∧
      s.drop q = bytes (skipSyms seen us) ++ t ∧ (skipSyms seen us).length ≤ us.length ∧
      ∀ u ∈ skipSyms seen us, u ∈ us := by
  induction us generalizing seen p with
  | nil => exact ⟨p, by simp [bytes, skipifs], Nat.le_refl p, by cases seen <;> rfl,
      by cases seen <;> exact h, by cases seen <;> simp [skipSyms],
        by cases seen <;> simp [skipSyms]⟩
  | cons u us ih =>
    obtain ⟨hu, hrest⟩ := List.forall_mem_cons.1 hus
    cases u with
    | text b hb =>
      have hstop : skipifs ifs s seen (bytes (.text b hb :: us)).length p = p := by
        rcases hu with ⟨c, rfl, hc, -⟩ | ⟨c, rfl⟩
        · have hget := getD_of_drop (h.trans (by rfl : _ = c :: (bytes us ++ t)))
          simp only [bytes_cons, Sym.bytes, List.length_append, List.length_singleton,
            Nat.add_comm 1, skipifs, hget, if_neg hc]
        · have hget := getD_of_drop (h.trans (by rfl : _ = ctlesc :: c :: (bytes us ++ t)))
          simp only [bytes_cons, Sym.bytes, List.length_append, List.length_cons, List.length_nil,
            Nat.add_comm _ (bytes us).length, skipifs, hget, if_neg hesc, Nat.zero_add]
      refine ⟨p, hstop, Nat.le_refl p, ?_, ?_, ?_, ?_⟩ <;> cases seen <;>
        first | rfl | exact h | exact Nat.le_refl _ | exact fun u hu => hu
    | white c =>
      obtain ⟨hc, -, hwhite⟩ := hu
      have hget := getD_of_drop (h.trans (by rfl : _ = c :: (bytes us ++ t)))
      have hdrop : s.drop (p + 1) = bytes us ++ t := drop_add (l := [c]) h
      obtain ⟨q, hq, hpq, hlen, hleft, hle, hmem⟩ := ih hrest seen (p + 1) hdrop
      have hskip : skipSyms seen (.white c :: us) = skipSyms seen us := by cases seen <;> rfl
      refine ⟨q, ?_, by omega, ?_, ?_, ?_, ?_⟩
      · rw [← hq]
        simp only [bytes_cons, Sym.bytes, List.length_append, List.length_singleton,
          Nat.add_comm 1, skipifs, hget, if_pos hc, hwhite, Bool.false_eq_true, if_false]
      · rw [hskip, hlen, bytes_cons, List.length_append]
        simp only [Sym.bytes, List.length_singleton]
        omega
      · rw [hskip, hleft]
      · rw [hskip]
        exact Nat.le_succ_of_le hle
      · rw [hskip]
        exact fun u hu => List.mem_cons_of_mem _ (hmem u hu)
    | other c =>
      obtain ⟨hc, -, hother⟩ := hu
      have hget := getD_of_drop (h.trans (by rfl : _ = c :: (bytes us ++ t)))
      cases seen with
      | true =>
        refine ⟨p, ?_, Nat.le_refl p, rfl, h, Nat.le_refl _, fun u hu => hu⟩
        simp only [bytes_cons, Sym.bytes, List.length_append, List.length_singleton,
          Nat.add_comm 1, skipifs, hget, if_pos hc, hother, if_true]
      | false =>
        have hdrop : s.drop (p + 1) = bytes us ++ t := drop_add (l := [c]) h
        obtain ⟨q, hq, hpq, hlen, hleft, hle, hmem⟩ := ih hrest true (p + 1) hdrop
        refine ⟨q, ?_, by omega, ?_, hleft, Nat.le_succ_of_le hle,
          fun u hu => List.mem_cons_of_mem _ (hmem u hu)⟩
        · rw [← hq]
          simp only [bytes_cons, Sym.bytes, List.length_append, List.length_singleton,
            Nat.add_comm 1, skipifs, hget, if_pos hc, hother, Bool.false_eq_true, if_false, if_true]
        · rw [show skipSyms false (.other c :: us) = skipSyms true us from rfl, hlen, bytes_cons,
            List.length_append]
          simp only [Sym.bytes, List.length_singleton]
          omega

theorem skipSyms_head (us : List (Sym Byte)) (seen : Bool) (c : Byte) (us' : List (Sym Byte)) :
    skipSyms seen us ≠ .white c :: us' := by
  induction us generalizing seen with
  | nil => cases seen <;> simp [skipSyms]
  | cons u us ih =>
    cases u with
    | text b hb => cases seen <;> simp [skipSyms]
    | white d => cases seen <;> exact ih _
    | other d =>
      cases seen with
      | true => simp [skipSyms]
      | false => exact ih true

/-- What a symbol of a region is to field splitting: where there are delimiters for nulls only, they
are separators. -/
def mark (nulonly : Bool) : Sym Byte → Tok Byte
  | .other c => if nulonly then .sep else .sym (.other c)
  | u => .sym u

def stretch (nulonly : Bool) (us : List (Sym Byte)) : List (Tok Byte) :=
  us.map (mark nulonly) ++ [.edge]

theorem fields_skip (nulonly : Bool) (us : List (Sym Byte)) (seen : Bool) (ts : List (Tok Byte)) :
    fieldsByStretch [] (!seen) false (stretch nulonly us ++ ts) =
      fieldsByStretch [] false false (stretch nulonly (skipSyms seen us) ++ ts) := by
  induction us generalizing seen with
  | nil => cases seen <;> rfl
  | cons u us ih =>
    cases u with
    | text b hb => cases seen <;> rfl
    | white c => cases seen <;> exact ih _
    | other c =>
      cases seen with
      | true => cases nulonly <;> rfl
      | false => cases nulonly <;> exact ih true

theorem fields_leading (nulonly : Bool) (us : List (Sym Byte)) (ts : List (Tok Byte)) :
    fieldsByStretch [] false true (stretch nulonly us ++ ts) =
      fieldsByStretch [] false false (stretch nulonly (skipSyms true us) ++ ts) := by
  induction us with
  | nil => rfl
  | cons u us ih =>
    cases u with
    | text b hb => rfl
    | white c => exact ih
    | other c => cases nulonly <;> rfl

theorem slice_ne_nil {start p : Nat} {c : Byte} {t : List Byte} (hstart : start < p)
    (h : s.drop p = c :: t) : (slice s start p).isEmpty = false := by
  have hlt : p < s.length := by
    by_contra hle
    rw [List.drop_eq_nil_of_le (Nat.le_of_not_lt hle)] at h
    cases h
  rw [List.isEmpty_eq_false_iff, ← List.length_pos_iff, slice, List.length_take, List.length_drop]
  omega

theorem splitRegion_syms (hesc : ctlesc ∉ ifs) (hnul : 0 ∈ ifs) (nulonly : Bool)
    (us : List (Sym Byte)) (hus : ∀ u ∈ us, Fits ifs u) (n p start : Nat)
    (args : List (List Byte)) {t : List Byte} (h : s.drop p = bytes us ++ t)
    (hstart : start ≤ p) (hn : (bytes us).length ≤ n)
    (hfirst : ∀ c us', us = .white c :: us' → start < p)
    (hhead : (slice s start p).head? ≠ some 0) :
    ∃ start' new, splitRegion ifs s (p + (bytes us).length) n p start args = (start', args ++ new) ∧
      start' ≤ p + (bytes us).length ∧
      (slice s start' (p + (bytes us).length)).head? ≠ some 0 ∧ ∀ ts,
        fieldsByStretch (slice s start p) false false (stretch nulonly us ++ ts) =
          new ++ fieldsByStretch (slice s start' (p + (bytes us).length)) false true ts := by
  induction hlen : us.length using Nat.strongRecOn generalizing us n p start args with
  | _ m ih =>
    subst hlen
    cases us with
    | nil =>
      refine ⟨start, [], ?_, hstart, hhead, fun ts => rfl⟩
      cases n <;> simp [splitRegion, bytes]
    | cons u us =>
      obtain ⟨hu, hrest⟩ := List.forall_mem_cons.1 hus
      rw [bytes_cons] at h hn ⊢
      rw [List.length_append] at hn ⊢
      rw [List.append_assoc] at h
      have hdrop := drop_add h
      cases u with
      | text b hb =>
        have hpos := List.length_pos_iff.2 hb
        obtain ⟨n, rfl⟩ := Nat.exists_eq_add_of_le' (Nat.le_trans hpos (Nat.le_trans
          (Nat.le_add_right _ _) hn))
        have hgo : ¬ p + (b.length + (bytes us).length) ≤ p := by omega
        have hstep : splitRegion ifs s (p + (b.length + (bytes us).length)) (n + 1) p start args =
            splitRegion ifs s (p + (b.length + (bytes us).length)) n (p + b.length) start args := by
          rcases hu with ⟨c, rfl, hc, hne⟩ | ⟨c, rfl⟩
          · rw [splitRegion, if_neg hgo, getD_of_drop (h.trans rfl), if_neg hne, if_neg hc]
            rfl
          · rw [splitRegion, if_neg hgo, getD_of_drop (h.trans rfl), if_pos rfl]
            rfl
        have hb' : slice s start (p + b.length) = slice s start p ++ b := by
          rw [slice_append hstart (Nat.le_add_right p b.length)]
          exact congrArg _ (slice_of_drop h)
        have hb0 : b.head? ≠ some 0 := by
          rcases hu with ⟨c, rfl, hc, -⟩ | ⟨c, rfl⟩
          · simpa using fun h0 : c = 0 => hc (h0 ▸ hnul)
          · simp [ctlesc]
        have hhead' : (slice s start (p + b.length)).head? ≠ some 0 := by
          rw [hb', List.head?_append]
          cases hslice : (slice s start p).head? with
          | none => simpa using hb0
          | some c => simpa [hslice] using hhead
        obtain ⟨start', new, hrun, hle, hend, hfields⟩ := ih us.length (Nat.lt_succ_self _) us
          hrest n (p + b.length) start args hdrop (by omega)
          (by simp only [Sym.bytes] at hn; omega) (fun _ _ _ => by omega) hhead' rfl
        rw [Nat.add_assoc] at hrun hle hend hfields
        rw [hb'] at hfields
        exact ⟨start', new, hstep.trans hrun, hle, hend, hfields⟩
      | white c =>
        obtain ⟨hc, hne, hwhite⟩ := hu
        simp only [Sym.bytes, List.length_singleton] at h hn hdrop ⊢
        obtain ⟨n, rfl⟩ := Nat.exists_eq_add_of_le' (Nat.le_trans (Nat.le_add_right 1 _) hn)
        obtain ⟨q, hq, hpq, hlen, hleft, hshort, hmem⟩ :=
          skipifs_syms hesc us hrest false (p + 1) hdrop
        obtain ⟨start', new, hrun, hle, hend, hfields⟩ := ih (skipSyms false us).length
          (Nat.lt_succ_of_le hshort) (skipSyms false us) (fun u hu => hrest u (hmem u hu)) n q q
          (args ++ [slice s start p]) hleft (Nat.le_refl q) (by omega)
          (fun c us' h => absurd h (skipSyms_head us false c us')) (by simp [slice_self]) rfl
        rw [hlen, Nat.add_assoc] at hrun hle hend hfields
        refine ⟨start', slice s start p :: new, ?_, hle, hend, fun ts => ?_⟩
        · rw [splitRegion, if_neg (by omega), getD_of_drop (h.trans rfl), if_neg hne, if_pos hc,
            hwhite, show p + (1 + (bytes us).length) - (p + 1) = (bytes us).length by omega, hq]
          simpa using hrun
        · have hpending := slice_ne_nil (hfirst c us rfl) (h.trans rfl)
          rw [slice_self] at hfields
          have hskip := fields_skip nulonly us false ts
          rw [hfields ts] at hskip
          rw [List.cons_append, ← hskip]
          simp [stretch, mark, fieldsByStretch, hpending]
      | other c =>
        obtain ⟨hc, hne, hother⟩ := hu
        simp only [Sym.bytes, List.length_singleton] at h hn hdrop ⊢
        obtain ⟨n, rfl⟩ := Nat.exists_eq_add_of_le' (Nat.le_trans (Nat.le_add_right 1 _) hn)
        obtain ⟨q, hq, hpq, hlen, hleft, hshort, hmem⟩ :=
          skipifs_syms hesc us hrest true (p + 1) hdrop
        obtain ⟨start', new, hrun, hle, hend, hfields⟩ := ih (skipSyms true us).length
          (Nat.lt_succ_of_le hshort) (skipSyms true us) (fun u hu => hrest u (hmem u hu)) n q q
          (args ++ [slice s start p]) hleft (Nat.le_refl q) (by omega)
          (fun c us' h => absurd h (skipSyms_head us true c us')) (by simp [slice_self]) rfl
        rw [hlen, Nat.add_assoc] at hrun hle hend hfields
        refine ⟨start', slice s start p :: new, ?_, hle, hend, fun ts => ?_⟩
        · rw [splitRegion, if_neg (by omega), getD_of_drop (h.trans rfl), if_neg hne, if_pos hc,
            hother, show p + (1 + (bytes us).length) - (p + 1) = (bytes us).length by omega, hq]
          simpa using hrun
        · rw [slice_self] at hfields
          have hskip := fields_skip nulonly us true ts
          rw [hfields ts] at hskip
          rw [List.cons_append, ← hskip]
          cases nulonly <;> simp [stretch, mark, fieldsByStretch]

theorem length_skipSyms_le (us : List (Sym Byte)) (seen : Bool) :
    (bytes (skipSyms seen us)).length ≤ (bytes us).length := by
  induction us generalizing seen with
  | nil => cases seen <;> exact Nat.le_refl _
  | cons u us ih =>
    rw [bytes_cons, List.length_append]
    cases u with
    | text b hb => cases seen <;> simp [skipSyms]
    | white d => cases seen <;> exact Nat.le_trans (ih _) (Nat.le_add_left _ _)
    | other d =>
      cases seen with
      | true => simp [skipSyms]
      | false => exact Nat.le_trans (ih true) (Nat.le_add_left _ _)

def delims (ifs : List Byte) (nulonly : Bool) : List Byte := (if nulonly then [] else ifs) ++ [0]

theorem breakRegion_syms (hesc : ctlesc ∉ ifs) (nparam : Nat) (nulonly : Bool)
    (us : List (Sym Byte)) (hus : ∀ u ∈ us, Fits (delims ifs nulonly) u) (o start : Nat)
    (args : List (List Byte)) {t : List Byte} (h : s.drop o = bytes us ++ t) (hstart : start ≤ o)
    (hhead : (slice s start o).head? ≠ some 0) :
    ∃ start' new,
      breakRegion ifs nparam s (start, args) ⟨o, o + (bytes us).length, nulonly⟩ =
        (start', args ++ new ++
          if nulonly = true ∧ 0 < nparam ∧ s.getD start' 0 = 0 then [[]] else []) ∧
      start' ≤ o + (bytes us).length ∧
      (slice s start' (o + (bytes us).length)).head? ≠ some 0 ∧ ∀ ts,
        fieldsByStretch (slice s start o) false true (stretch nulonly us ++ ts) =
          new ++ fieldsByStretch (slice s start' (o + (bytes us).length)) false true ts := by
  have hesc' : ctlesc ∉ delims ifs nulonly := by
    cases nulonly <;> simp [delims, hesc, show ctlesc ≠ 0 by decide]
  have hnul : (0 : Byte) ∈ delims ifs nulonly := by simp [delims]
  obtain ⟨q, hq, hoq, hlen, hleft, -, hmem⟩ := skipifs_syms hesc' us hus true o h
  have hbreak : ∀ x start' new, (let y := if q ≠ o then
        (q, if x.1 < o then x.2 ++ [slice s x.1 o] else x.2) else x
      splitRegion (delims ifs nulonly) s (o + (bytes us).length) (o + (bytes us).length - q) q y.1
        y.2) = (start', new) →
      breakRegion ifs nparam s x ⟨o, o + (bytes us).length, nulonly⟩ = (start', new ++
        if nulonly = true ∧ 0 < nparam ∧ s.getD start' 0 = 0 then [[]] else []) :=
    fun x start' new hsplit => by
      simp only [delims] at hq hsplit
      simp only [breakRegion, Nat.add_sub_cancel_left, show nonwhite 0 = true from rfl, hq,
        hsplit]
      split <;> simp
  by_cases hqo : q = o
  · -- no white space leads the region
    subst hqo
    have hsame : skipSyms true us = us := by
      cases us with
      | nil => rfl
      | cons u us =>
        cases u with
        | text b hb => rfl
        | white c =>
          have := length_skipSyms_le us true
          simp only [skipSyms, bytes_cons, List.length_append, Sym.bytes,
            List.length_singleton] at hlen
          omega
        | other c => rfl
    have hfirst : ∀ c us', us = .white c :: us' → start < q := fun c us' h =>
      absurd (hsame.trans h) (skipSyms_head us true c us')
    obtain ⟨start', new, hrun, hle, hend, hfields⟩ := splitRegion_syms hesc' hnul nulonly us hus
      (bytes us).length q start args h hstart (Nat.le_refl _) hfirst hhead
    refine ⟨start', new, ?_, hle, hend, fun ts => ?_⟩
    · refine hbreak _ _ _ ?_
      rw [if_neg (by simp), Nat.add_sub_cancel_left]
      exact hrun
    · rw [← hfields ts]
      cases us with
      | nil => rfl
      | cons u us =>
        cases u with
        | text b hb => rfl
        | white c => exact absurd hsame (skipSyms_head _ true c us)
        | other c => cases nulonly <;> rfl
  · obtain ⟨c, us', rfl⟩ : ∃ c us', us = .white c :: us' := by
      cases us with
      | nil => exact absurd (by simpa [skipSyms, bytes] using hlen) hqo
      | cons u us =>
        cases u with
        | text b hb => exact absurd (by simpa [skipSyms] using hlen) hqo
        | white c => exact ⟨c, us, rfl⟩
        | other c => exact absurd (by simpa [skipSyms] using hlen) hqo
    obtain ⟨start', new, hrun, hle, hend, hfields⟩ := splitRegion_syms hesc' hnul nulonly _
      (fun u hu => hus u (hmem u hu)) (o + (bytes (Sym.white c :: us')).length - q) q q
      (if start < o then args ++ [slice s start o] else args) hleft (Nat.le_refl q) (by omega)
      (fun c us'' h => absurd h (skipSyms_head _ true c us'')) (by simp [slice_self])
    rw [hlen] at hrun hle hend hfields
    rw [slice_self] at hfields
    refine ⟨start', (if start < o then [slice s start o] else []) ++ new, ?_, hle, hend,
      fun ts => ?_⟩
    · refine hbreak _ _ _ ?_
      rw [if_pos hqo]
      refine hrun.trans ?_
      split <;> simp
    · have hlead := fields_leading nulonly us' ts
      have hskip : skipSyms true (.white c :: us') = skipSyms true us' := rfl
      rw [hskip] at hfields
      rw [hfields ts] at hlead
      by_cases hlt : start < o
      · have hpending := slice_ne_nil hlt h
        rw [if_pos hlt, List.append_assoc, ← hlead]
        simp [stretch, mark, fieldsByStretch, hpending]
      · obtain rfl : start = o := by omega
        rw [if_neg hlt, List.nil_append, ← hlead, slice_self]
        rfl

/-! ### The whole string -/

/-- A part of the string: a character of a literal, something quoted, what an expansion has put
there, or the positional parameters with nulls between them. -/
inductive Seg
  | literal (b : List Byte) (h : b ≠ [])
  | quoted (b : List Byte)
  | expansion (us : List (Sym Byte))
  | args (any : Bool) (us : List (Sym Byte))

namespace Seg

def bytes : Seg → List Byte
  | .literal b _ => b
  | .quoted b => b
  | .expansion us => Param.bytes us
  | .args _ us => Param.bytes us

/-- What the part is to field splitting: `nparam` is the number of parameters at the end. -/
def toks (nparam : Nat) : Seg → List (Tok Byte)
  | .literal b h => [.sym (.text b h)]
  | .quoted b => .null :: if h : b = [] then [] else [.sym (.text b h)]
  | .expansion us => .edge :: stretch false us
  | .args any us =>
    (if any then [.null] else []) ++
      (.edge :: (stretch true us ++ if 0 < nparam then [.save] else []))

def Fits (ifs : List Byte) : Seg → Prop
  | .literal b _ => b.head? ≠ some 0
  | .quoted b => b.head? ≠ some 0
  | .expansion us => ∀ u ∈ us, Param.Fits (delims ifs false) u
  | .args _ us => ∀ u ∈ us, Param.Fits (delims ifs true) u

def NulFree : Seg → Prop
  | .quoted b => 0 ∉ b
  | .expansion us => ∀ u ∈ us, u.bytes ≠ [0]
  | .literal _ _ => True
  | .args _ _ => True

instance : DecidablePred NulFree
  | .quoted b => inferInstanceAs (Decidable (0 ∉ b))
  | .expansion us => inferInstanceAs (Decidable (∀ u ∈ us, u.bytes ≠ [0]))
  | .literal _ _ => .isTrue trivial
  | .args _ _ => .isTrue trivial

def isArgs : Seg → Bool
  | .args _ _ => true
  | _ => false

end Seg

/-- The regions of the expansions, in a string that has `o` bytes before them. -/
def regionsFrom : Nat → List Seg → List Region
  | _, [] => []
  | o, .literal b _ :: segs => regionsFrom (o + b.length) segs
  | o, .quoted b :: segs => regionsFrom (o + b.length) segs
  | o, .expansion us :: segs =>
    ⟨o, o + (bytes us).length, false⟩ :: regionsFrom (o + (bytes us).length) segs
  | o, .args _ us :: segs =>
    ⟨o, o + (bytes us).length, true⟩ :: regionsFrom (o + (bytes us).length) segs

theorem head_append {l b : List Byte} (hl : l.head? ≠ some 0) (hb : b.head? ≠ some 0) :
    (l ++ b).head? ≠ some 0 := by
  cases l with
  | nil => exact hb
  | cons c l => exact hl

theorem head_ne {b : List Byte} (hb : b ≠ []) (hhead : b.head? ≠ some 0) (t : List Byte) :
    (b ++ t).headD 0 ≠ 0 := by
  cases b with
  | nil => exact absurd rfl hb
  | cons c b => simpa using hhead

theorem head_of_fits {b : List Byte} {hb : b ≠ []} (hnul : 0 ∈ ifs) (h : Fits ifs (.text b hb)) :
    b.head? ≠ some 0 := by
  rcases h with ⟨c, rfl, hc, -⟩ | ⟨c, rfl⟩
  · simpa using fun h0 : c = 0 => hc (h0 ▸ hnul)
  · simp [ctlesc]

theorem ends_toks (nparam : Nat) (segs : List Seg) (hsegs : ∀ g ∈ segs, g.Fits ifs)
    (hnul : ∀ g ∈ segs, g.NulFree) :
    ends (segs.flatMap (Seg.toks nparam)) = decide ((segs.flatMap Seg.bytes).headD 0 = 0) := by
  induction segs with
  | nil => rfl
  | cons g segs ih =>
    obtain ⟨hg, hrest⟩ := List.forall_mem_cons.1 hsegs
    obtain ⟨hz, hnul⟩ := List.forall_mem_cons.1 hnul
    have ih := ih hrest hnul
    have hdelims : ∀ b, (0 : Byte) ∈ delims ifs b := fun b => by simp [delims]
    rw [List.flatMap_cons, List.flatMap_cons]
    cases g with
    | literal b hb => exact (decide_eq_false (head_ne hb hg _)).symm
    | quoted b =>
      by_cases hb : b = []
      · subst hb
        exact ih
      · refine Eq.trans ?_ (decide_eq_false (head_ne hb hg _)).symm
        simp [Seg.toks, hb, ends]
    | expansion us =>
      cases us with
      | nil => exact ih
      | cons u us =>
        obtain ⟨hu, -⟩ := List.forall_mem_cons.1 hg
        cases u with
        | text b hb =>
          refine (decide_eq_false ?_).symm
          rw [Seg.bytes, bytes_cons, List.append_assoc]
          exact head_ne hb (head_of_fits (hdelims false) hu) _
        | white c =>
          refine (decide_eq_false ?_).symm
          rintro rfl
          exact absurd hu.2.2 (by decide)
        | other c =>
          refine (decide_eq_false ?_).symm
          rintro rfl
          exact hz _ List.mem_cons_self rfl
    | args any us =>
      cases us with
      | nil =>
        have hempty : ends (Seg.toks nparam (.args any []) ++ segs.flatMap (Seg.toks nparam)) =
            ends (segs.flatMap (Seg.toks nparam)) := by
          cases any <;> by_cases hn : 0 < nparam <;> simp [Seg.toks, stretch, hn, ends]
        exact hempty.trans ih
      | cons u us =>
        obtain ⟨hu, -⟩ := List.forall_mem_cons.1 hg
        cases u with
        | text b hb =>
          refine Eq.trans (by cases any <;> rfl) (decide_eq_false ?_).symm
          rw [Seg.bytes, bytes_cons, List.append_assoc]
          exact head_ne hb (head_of_fits (hdelims true) hu) _
        | white c =>
          obtain ⟨hc, -, hwhite⟩ := hu
          obtain rfl : c = 0 := by simpa [delims] using hc
          exact absurd hwhite (by decide)
        | other c =>
          obtain rfl : c = 0 := by simpa [delims] using hu.1
          cases any <;> rfl

theorem getD_eq_headD (p : Nat) : s.getD p 0 = (s.drop p).headD 0 := by
  rw [List.getD_eq_getElem?_getD, List.headD_eq_head?_getD, List.head?_drop]

theorem drop_slice {start p : Nat} (h : start ≤ p) :
    s.drop start = slice s start p ++ s.drop p := by
  have hdrop : (s.drop start).drop (p - start) = s.drop p := by
    rw [List.drop_drop, Nat.add_sub_cancel' h]
  rw [slice, ← hdrop, List.take_append_drop]

theorem foldl_regions (hesc : ctlesc ∉ ifs) (nparam : Nat) (segs : List Seg)
    (hsegs : ∀ g ∈ segs, g.Fits ifs)
    (hnul : (∀ g ∈ segs, g.NulFree) ∨ ∀ g ∈ segs, g.isArgs = false) (o start : Nat)
    (args : List (List Byte)) (h : s.drop o = segs.flatMap Seg.bytes) (hstart : start ≤ o)
    (hhead : (slice s start o).head? ≠ some 0) (leading : Bool) :
    ∃ start' new, (regionsFrom o segs).foldl (breakRegion ifs nparam s) (start, args) =
        (start', args ++ new) ∧ (s.drop start').head? ≠ some 0 ∧
      fieldsByStretch (slice s start o) false leading (segs.flatMap (Seg.toks nparam)) =
        new ++ if s.drop start' = [] then [] else [s.drop start'] := by
  induction segs generalizing o start args leading with
  | nil =>
    have hall : slice s start o = s.drop start := by
      rw [drop_slice hstart, h]
      exact (List.append_nil _).symm
    refine ⟨start, [], by simp [regionsFrom], hall ▸ hhead, ?_⟩
    rw [hall]
    cases s.drop start <;> simp [fieldsByStretch]
  | cons g segs ih =>
    obtain ⟨hg, hrest⟩ := List.forall_mem_cons.1 hsegs
    have hnul' : (∀ g ∈ segs, g.NulFree) ∨ ∀ g ∈ segs, g.isArgs = false :=
      hnul.imp (fun h => (List.forall_mem_cons.1 h).2) fun h => (List.forall_mem_cons.1 h).2
    rw [List.flatMap_cons] at h
    have hdrop := drop_add h
    cases g with
    | literal b hb =>
      have hb' : slice s start (o + b.length) = slice s start o ++ b := by
        rw [slice_append hstart (Nat.le_add_right o b.length)]
        exact congrArg _ (slice_of_drop h)
      obtain ⟨start', new, hrun, hend, hfields⟩ := ih hrest hnul' (o + b.length) start args hdrop
        (by omega) (hb' ▸ head_append hhead hg) false
      rw [hb'] at hfields
      exact ⟨start', new, hrun, hend, hfields⟩
    | quoted b =>
      have hb' : slice s start (o + b.length) = slice s start o ++ b := by
        rw [slice_append hstart (Nat.le_add_right o b.length)]
        exact congrArg _ (slice_of_drop h)
      by_cases hb : b = []
      · subst hb
        obtain ⟨start', new, hrun, hend, hfields⟩ := ih hrest hnul' o start args hdrop hstart
          hhead leading
        exact ⟨start', new, hrun, hend, hfields⟩
      · obtain ⟨start', new, hrun, hend, hfields⟩ := ih hrest hnul' (o + b.length) start args
          hdrop (by omega) (hb' ▸ head_append hhead hg) false
        rw [hb'] at hfields
        refine ⟨start', new, hrun, hend, hfields ▸ ?_⟩
        simp [Seg.toks, hb, fieldsByStretch]
    | expansion us =>
      obtain ⟨start₁, new₁, hrun₁, hle, hhead₁, hfields₁⟩ :=
        breakRegion_syms hesc nparam false us hg o start args h hstart hhead
      obtain ⟨start', new, hrun, hend, hfields⟩ := ih hrest hnul' (o + (bytes us).length) start₁
        (args ++ new₁) hdrop hle hhead₁ true
      rw [if_neg (fun h => Bool.false_ne_true h.1), List.append_nil] at hrun₁
      refine ⟨start', new₁ ++ new, ?_, hend, ?_⟩
      · rw [regionsFrom, List.foldl_cons, hrun₁, hrun, List.append_assoc]
      · rw [List.flatMap_cons, List.append_assoc, ← hfields, ← hfields₁]
        rfl
    | args any us =>
      have hz : ∀ g ∈ segs, g.NulFree := hnul.elim (fun h => (List.forall_mem_cons.1 h).2)
        fun h => absurd (h _ List.mem_cons_self) (by simp [Seg.isArgs])
      obtain ⟨start₁, new₁, hrun₁, hle, hhead₁, hfields₁⟩ :=
        breakRegion_syms hesc nparam true us hg o start args h hstart hhead
      have hlook : s.getD start₁ 0 = 0 ↔
          ((slice s start₁ (o + (bytes us).length)).isEmpty &&
            ends (segs.flatMap (Seg.toks nparam))) = true := by
        have hdrop' : s.drop (o + (bytes us).length) = segs.flatMap Seg.bytes := hdrop
        rw [getD_eq_headD, drop_slice hle, ends_toks nparam segs hrest hz, hdrop']
        cases hslice : slice s start₁ (o + (bytes us).length) with
        | nil => simp
        | cons c l =>
          rw [hslice] at hhead₁
          simpa using hhead₁
      obtain ⟨start', new, hrun, hend, hfields⟩ := ih hrest hnul' (o + (bytes us).length) start₁
        (args ++ new₁ ++ if true = true ∧ 0 < nparam ∧ s.getD start₁ 0 = 0 then [[]] else [])
        hdrop hle hhead₁ true
      refine ⟨start', new₁ ++ (if 0 < nparam ∧ s.getD start₁ 0 = 0 then [[]] else []) ++ new, ?_,
        hend, ?_⟩
      · rw [regionsFrom, List.foldl_cons, hrun₁, hrun]
        simp
      · have hstretch := hfields₁ ((if 0 < nparam then [.save] else []) ++
          segs.flatMap (Seg.toks nparam))
        have hsave : fieldsByStretch (slice s start₁ (o + (bytes us).length)) false true
            ((if 0 < nparam then [.save] else []) ++ segs.flatMap (Seg.toks nparam)) =
            (if 0 < nparam ∧ s.getD start₁ 0 = 0 then [[]] else []) ++
              fieldsByStretch (slice s start₁ (o + (bytes us).length)) false true
                (segs.flatMap (Seg.toks nparam)) := by
          by_cases hn : 0 < nparam
          · rw [if_pos hn, List.singleton_append, fieldsByStretch]
            by_cases hget : s.getD start₁ 0 = 0
            · rw [if_pos (hlook.1 hget), if_pos ⟨hn, hget⟩]
              rfl
            · rw [if_neg fun h => hget (hlook.2 h), if_neg fun h => hget h.2]
              rfl
          · rw [if_neg hn, if_neg fun h => hn h.1]
            rfl
        rw [hsave, hfields] at hstretch
        rw [List.flatMap_cons, List.append_assoc, List.append_assoc, ← hstretch]
        cases any <;> simp [Seg.toks, fieldsByStretch]

theorem ifsbreakup_segs (hesc : ctlesc ∉ ifs) (nparam : Nat) (segs : List Seg)
    (hne : regionsFrom 0 segs ≠ [] ∨ segs.flatMap Seg.bytes ≠ [])
    (hsegs : ∀ g ∈ segs, g.Fits ifs)
    (hnul : (∀ g ∈ segs, g.NulFree) ∨ ∀ g ∈ segs, g.isArgs = false) :
    ifsbreakup ifs nparam (segs.flatMap Seg.bytes) (regionsFrom 0 segs) =
      fieldsByStretch [] false false (segs.flatMap (Seg.toks nparam)) := by
  obtain ⟨start', new, hrun, hend, hfields⟩ := foldl_regions (s := segs.flatMap Seg.bytes) hesc
    nparam segs hsegs hnul 0 0 [] rfl (Nat.le_refl 0) (by simp [slice_self]) false
  rw [slice_self] at hfields
  rw [hfields]
  cases hregions : regionsFrom 0 segs with
  | nil =>
    rw [hregions] at hrun
    obtain ⟨rfl, hnew⟩ := Prod.mk.inj hrun
    have hbytes := hne.resolve_left fun h => h hregions
    obtain rfl : new = [] := hnew.symm
    rw [ifsbreakup, List.drop_zero, if_neg hbytes]
    rfl
  | cons region regions =>
    rw [ifsbreakup, ← hregions, hrun]
    · dsimp only
      rw [getD_eq_headD]
      cases hdrop : (segs.flatMap Seg.bytes).drop start' with
      | nil => simp
      | cons c l =>
        rw [hdrop] at hend
        have hc : c ≠ 0 := by simpa using hend
        simp [hc]
    · simp

/-! ### Words -/

def charSym (quoted : Bool) (ifs : List Byte) (c : Byte) : Sym Byte :=
  if (quoteTable quoted).entry c = .cctl then .text [ctlesc, c] (by simp)
  else if c ∈ ifs then if nonwhite c then .other c else .white c
  else .text [c] (by simp)

def printed (output : List Byte) : List Byte :=
  let text := output.filter (· ≠ 0)
  if output.getLast? = some newline then text.dropLast else text

def parameter (name : List Byte) (env : Env) : List Byte :=
  if isset name false env then inserted name false Flags.none env else []

def Seg.value (quoted : Bool) (ifs v : List Byte) : Seg :=
  if quoted then .quoted (escaped true (quoteTable true) v)
  else .expansion (v.map (charSym false (delims ifs false)))

/-- The part of the string that is the positional parameters in double quotes: a single one is a
value. -/
def Seg.params (params : List (List Byte)) : Seg :=
  match params with
  | [p] => .quoted (escaped true (quoteTable true) p)
  | ps => .args (ps ≠ []) ([.other 0].intercalate (ps.map (·.map (charSym true [0]))))

/-- Words of double-quoted parts and of variables, parameters and commands: `null` is a quoted part
that is empty. An unquoted `$@` has several values and is not among the parameters. -/
inductive Parts (α : Type)
  | nil
  | null (rest : Parts α)
  | lit (c : Byte) (hc : Plain c) (rest : Parts α)
  | esc (c : Byte) (rest : Parts α)
  | mark (quoted : Bool) (cmd : α) (rest : Parts α)
  | simple (quoted : Bool) (name : List Byte) (hname : Named name)
    (hat : quoted = true ∨ name ≠ [64]) (rest : Parts α)

namespace Parts

def word : Parts α → Word α
  | .nil => .nil
  | .null rest => rest.word
  | .lit c hc rest => .lit c hc rest.word
  | .esc c rest => .esc c rest.word
  | .mark quoted cmd rest => .mark quoted cmd rest.word
  | .simple quoted name hname _ rest => .simple quoted name hname rest.word

def Unquoted : Parts α → Prop
  | .nil => True
  | .null _ => False
  | .lit _ _ rest => rest.Unquoted
  | .esc _ rest => rest.Unquoted
  | .mark quoted _ rest => quoted = false ∧ rest.Unquoted
  | .simple quoted _ _ _ rest => quoted = false ∧ rest.Unquoted

/-- The parts of the string that the word becomes. -/
def segs (w : World α) (ifs : List Byte) : Parts α → Flags → State α → List Seg
  | .nil, _, _ => []
  | .null rest, flag, s => .quoted [] :: rest.segs w ifs flag s
  | .lit c _ rest, flag, s => .literal [c] (by simp) :: rest.segs w ifs flag (s.put [c])
  | .esc c rest, flag, s =>
    .literal [ctlesc, c] (by simp) :: rest.segs w ifs flag (s.put [ctlesc, c])
  | .mark quoted cmd rest, flag, s =>
    match w.evalbackcmd cmd s.env, expbackq w cmd quoted flag s with
    | .ok (output, _), .ok s' => .value quoted ifs (printed output) ::
        rest.segs w ifs flag { s' with argbackq := s.argbackq.tail }
    | _, _ => []
  | .simple quoted name _ _ rest, flag, s =>
    (if name = [64] then .params s.env.params else .value quoted ifs (parameter name s.env)) ::
      rest.segs w ifs flag (putvalue name vsnormal quoted (isset name false s.env) flag s)

def toks (w : World α) (ifs : List Byte) (nparam : Nat) (parts : Parts α) (flag : Flags)
    (s : State α) : List (Tok Byte) :=
  (parts.segs w ifs flag s).flatMap (Seg.toks nparam)

end Parts

section values

variable (quoted : Bool)

theorem charSym_bytes (ifs : List Byte) (c : Byte) : (charSym quoted ifs c).bytes =
    if (quoteTable quoted).entry c = .cctl then [ctlesc, c] else [c] := by
  unfold charSym
  split
  · rfl
  · split
    · split <;> rfl
    · rfl

theorem charSym_fits (c : Byte) : Fits ifs (charSym quoted ifs c) := by
  unfold charSym
  by_cases hctl : (quoteTable quoted).entry c = .cctl
  · rw [if_pos hctl]
    exact Or.inr ⟨c, rfl⟩
  · have hne : c ≠ ctlesc := by
      rintro rfl
      cases quoted <;> exact hctl (by decide)
    rw [if_neg hctl]
    by_cases hc : c ∈ ifs
    · rw [if_pos hc]
      cases hw : nonwhite c with
      | true => exact ⟨hc, hne, hw⟩
      | false => exact ⟨hc, hne, hw⟩
    · rw [if_neg hc]
      exact Or.inl ⟨c, rfl, hc, hne⟩

theorem escaped_eq (ifs : List Byte) (l : List Byte) :
    escaped true (quoteTable quoted) l = bytes (l.map (charSym quoted ifs)) := by
  simp only [escaped, bytes, List.flatMap_map, charSym_bytes, Bool.true_and, decide_eq_true_eq]

theorem escaped_append (quotes : Bool) (t : Table) (l l' : List Byte) :
    escaped quotes t (l ++ l') = escaped quotes t l ++ escaped quotes t l' := List.flatMap_append

theorem escaped_plain {quotes : Bool} {t : Table} {l : List Byte}
    (h : ∀ c ∈ l, t.entry c ≠ .cctl) : escaped quotes t l = l := by
  induction l with
  | nil => rfl
  | cons c l ih =>
    obtain ⟨hc, hl⟩ := List.forall_mem_cons.1 h
    have hfirst : escaped quotes t [c] = [c] := by simp [escaped, hc]
    rw [← List.singleton_append, escaped_append, hfirst, ih hl]

theorem escaped_intercalate (t : Table) (ht : t.entry 32 ≠ .cctl) (ls : List (List Byte)) :
    escaped true t ([32].intercalate ls) = [32].intercalate (ls.map (escaped true t)) := by
  match ls with
  | [] => rfl
  | [l] => simp [List.intercalate]
  | l :: l' :: ls =>
    have ih := escaped_intercalate t ht (l' :: ls)
    have hspace : escaped true t [32] = [32] := escaped_plain (by simpa using ht)
    rw [List.map_cons, List.map_cons, List.intercalate_cons_cons, List.intercalate_cons_cons,
      escaped_append, escaped_append, ih, hspace, List.map_cons]

theorem bytes_append (us us' : List (Sym Byte)) : bytes (us ++ us') = bytes us ++ bytes us' :=
  List.flatMap_append

theorem bytes_intercalate (ps : List (List Byte)) :
    bytes ([.other 0].intercalate (ps.map (·.map (charSym quoted ifs)))) =
      [0].intercalate (ps.map (escaped true (quoteTable quoted))) := by
  match ps with
  | [] => rfl
  | [p] => simp [List.intercalate, escaped_eq quoted ifs]
  | p :: p' :: ps =>
    have ih := bytes_intercalate (p' :: ps)
    rw [List.map_cons, List.map_cons, List.intercalate_cons_cons, bytes_append, bytes_append,
      ← List.map_cons, ih, List.map_cons, List.map_cons, List.map_cons,
      List.intercalate_cons_cons, ← escaped_eq quoted ifs]
    rfl

theorem entry_of_isInName {c : Byte} (h : isInName c = true) :
    (quoteTable quoted).entry c ≠ .cctl := by
  intro hctl
  have hmem : c ∈ [ctlesc, ctlvar, ctlendvar, ctlbackq, ctlbackq + ctlquote, ctlari, ctlendari] ++
      quotedSpecial := by
    by_contra hmem
    obtain ⟨hcontrol, hspecial⟩ := not_or.1 fun h => hmem (List.mem_append.2 h)
    revert hctl
    cases quoted <;>
    · simp only [quoteTable, Table.entry, add, initTable, if_neg hcontrol, if_neg hspecial,
        Bool.false_eq_true, if_true, if_false]
      split_ifs <;> simp
  simp only [quotedSpecial, List.cons_append, List.nil_append, List.mem_cons, List.not_mem_nil,
    or_false] at hmem
  rcases hmem with rfl | rfl | rfl | rfl | rfl | rfl | rfl | rfl | rfl | rfl | rfl | rfl | rfl |
    rfl | rfl <;> exact absurd h (by decide)

theorem inserted_full {name : List Byte} (hname : Named name) (hat : name ≠ [64]) {flag : Flags}
    (hfull : flag.full = true) (env : Env) : inserted name quoted flag env =
      escaped true (quoteTable quoted) (inserted name false Flags.none env) := by
  have hid : ∀ b, escaped false (quoteTable b) = id := fun b => funext fun l => by simp [escaped]
  cases hs : isName (name.headD 0) with
  | true =>
    simp only [inserted, hs, if_true, Flags.quotes, hfull, Bool.true_or, Flags.none, Bool.or_self,
      hid, id]
  | false =>
    obtain ⟨c, -, rfl⟩ := hname.resolve_left fun h => absurd h.1 (by
      rw [hs]
      exact Bool.false_ne_true)
    have hc : c ≠ 64 := fun h => hat (congrArg (fun c => [c]) h)
    have hs' : ¬ isName c = true := by
      rw [show isName c = false from hs]
      exact Bool.false_ne_true
    simp only [inserted, List.headD_cons, if_neg hs', varvalue, hfull, Flags.none, hid, id, hc,
      false_or, false_and, if_false]
    by_cases hstar : c = 42
    · rw [if_pos hstar, if_pos hstar, List.map_id,
        escaped_intercalate _ (by cases quoted <;> decide)]
    · rw [if_neg hstar, if_neg hstar]
      split
      · rfl
      · split
        · rfl
        · cases hv : env.special c with
          | none => rfl
          | some v =>
            exact (escaped_plain fun b hb =>
              entry_of_isInName quoted (env.letters c v hv b hb)).symm

theorem expbackq_full {w : World α} {cmd : α} {flag : Flags} (hfull : flag.full = true)
    {s s' : State α} (h : expbackq w cmd quoted flag s = .ok s') :
    ∃ output env, w.evalbackcmd cmd s.env = .ok (output, env) ∧
      s'.dest = s.dest ++ escaped true (quoteTable quoted) (printed output) ∧
      s'.regions = s.regions ++
        if quoted then [] else [⟨s.dest.length, s'.dest.length, false⟩] := by
  unfold expbackq at h
  cases hrun : w.evalbackcmd cmd s.env with
  | error m => simp [hrun] at h
  | ok r =>
    obtain ⟨output, env⟩ := r
    have hquotes : flag.quotes = true := by simp [Flags.quotes, hfull]
    simp only [hrun, hquotes, Except.ok.injEq] at h
    have htext : (if output.getLast? = some newline then
          (escaped true (quoteTable quoted) (output.filter (· ≠ 0))).dropLast
        else escaped true (quoteTable quoted) (output.filter (· ≠ 0))) =
        escaped true (quoteTable quoted) (printed output) := by
      unfold printed
      dsimp only
      by_cases hlast : output.getLast? = some newline
      · rw [if_pos hlast, if_pos hlast]
        obtain ⟨l, rfl⟩ := List.getLast?_eq_some_iff.1 hlast
        have hfilter : (l ++ [newline]).filter (· ≠ 0) = l.filter (· ≠ 0) ++ [newline] := by
          rw [List.filter_append]
          rfl
        have hnl : escaped true (quoteTable quoted) [newline] = [newline] := by
          cases quoted <;> decide
        rw [hfilter, escaped_append, hnl, List.dropLast_concat, List.dropLast_concat]
      · rw [if_neg hlast, if_neg hlast]
    rw [htext] at h
    subst h
    refine ⟨output, env, rfl, ?_, ?_⟩
    · cases quoted <;> rfl
    · cases quoted
      · rfl
      · exact (List.append_nil _).symm

theorem putvalue_normal (name : List Byte) (set : Bool) (flag : Flags) (s : State α) :
    putvalue name vsnormal quoted set flag s =
      let s' := if set then s.put (inserted name quoted flag s.env) else s
      if ¬ quoted ∨ (name.headD 0 = 64 ∧ s.env.params.length ≠ 1) then
        s'.recordregion s.dest.length quoted
      else s' := by
  have hne : vsnormal ≠ vsplus := by decide
  cases set <;> simp [putvalue, hne]

end values

/-- `getifs`, for a region that is not for nulls only. -/
def getifs (env : Env) : List Byte := (env.vars [73, 70, 83]).getD [32, 9, 10]

/-- The word is expanded, and `ifsbreakup` finds the fields of the string. -/
def Split (w : World α) (parts : Parts α) (flag : Flags) (s : State α) : Prop :=
  ∃ turns, ∀ n ≥ turns, ∃ r, expand w n parts.word.text flag s = some (.ok r) ∧
    ifsbreakup (getifs r.env) r.env.params.length r.dest r.regions =
      fields none false (parts.toks w (getifs r.env) r.env.params.length flag s)

section

variable {w : World α} {parts : Parts α} {flag : Flags} {s r : State α}

theorem Parts.loses : parts.word.loses w flag s = false := by
  induction parts generalizing s with
  | nil => rfl
  | null rest ih => exact ih
  | lit c hc rest ih => exact ih
  | esc c rest ih => exact ih
  | mark quoted cmd rest ih =>
    simp only [Parts.word, Word.loses]
    split
    · rfl
    · exact ih
  | simple quoted name hname hat rest ih =>
    simp only [Parts.word, Word.loses]
    split
    · rfl
    · exact ih

theorem expand_parts (hbq : parts.word.marks <+: s.argbackq)
    (hrun : parts.word.run w flag s = .ok r) {n : Nat} (hn : parts.word.size ≤ n) :
    expand w n parts.word.text flag s = some (.ok r) := by
  obtain ⟨res, hres, hf⟩ := follows w parts.word flag n n true [] s hn hn (Or.inl rfl) hbq.length_le
  rw [← argstr_text w _ n parts.word [] (Or.inl rfl), List.append_nil] at hres
  rw [expand, hres, hf.same hbq Parts.loses, hrun]

theorem value_bytes (quoted : Bool) (ifs v : List Byte) :
    (Seg.value quoted ifs v).bytes = escaped true (quoteTable quoted) v := by
  cases quoted
  · exact (escaped_eq false _ v).symm
  · rfl

theorem regionsFrom_value (quoted : Bool) (ifs v : List Byte) (o : Nat) :
    regionsFrom o [Seg.value quoted ifs v] =
      if quoted then [] else [⟨o, o + (Seg.value quoted ifs v).bytes.length, false⟩] := by
  cases quoted <;> rfl

theorem regionsFrom_cons (g : Seg) (o : Nat) (segs : List Seg) :
    regionsFrom o (g :: segs) = regionsFrom o [g] ++ regionsFrom (o + g.bytes.length) segs := by
  cases g <;> rfl

theorem headD_at {name : List Byte} (hname : Named name) : name.headD 0 = 64 ↔ name = [64] := by
  refine ⟨fun h => ?_, fun h => by rw [h]; rfl⟩
  rcases hname with ⟨hs, -⟩ | ⟨c, -, rfl⟩
  · rw [h] at hs
    exact absurd hs (by decide)
  · rw [show c = 64 from h]

theorem putvalue_params (hfull : flag.full = true) (s : State α) :
    let s' := putvalue [64] vsnormal true (isset [64] false s.env) flag s
    s'.dest = s.dest ++ (Seg.params s.env.params).bytes ∧
      s'.regions = s.regions ++ regionsFrom s.dest.length [Seg.params s.env.params] := by
  have hins : inserted [64] true flag s.env =
      [0].intercalate (s.env.params.map (escaped true (quoteTable true))) := by
    simp [inserted, varvalue, hfull, isName]
  have hset : isset [64] false s.env = decide (s.env.params ≠ []) := by
    simp [isset, varisset, isName]
  intro s'
  have hs' : s' = _ := putvalue_normal true [64] (isset [64] false s.env) flag s
  rw [hins, hset] at hs'
  rw [hs']
  match hp : s.env.params with
  | [] => exact ⟨(List.append_nil _).symm, rfl⟩
  | [p] =>
    refine ⟨?_, (List.append_nil _).symm⟩
    simp [Seg.params, Seg.bytes, State.put]
  | p :: p' :: ps =>
    have hbytes : (Seg.params (p :: p' :: ps)).bytes =
        ([0] : List Byte).intercalate ((p :: p' :: ps).map (escaped true (quoteTable true))) :=
      bytes_intercalate true (p :: p' :: ps)
    have hregions : regionsFrom s.dest.length [Seg.params (p :: p' :: ps)] =
        [⟨s.dest.length, s.dest.length + (Seg.params (p :: p' :: ps)).bytes.length, true⟩] := rfl
    rw [hregions, hbytes]
    constructor
    · rfl
    · rw [← List.length_append]
      rfl

theorem putvalue_value {name : List Byte} (hname : Named name) (hat : name ≠ [64])
    (hfull : flag.full = true) (quoted : Bool) (ifs : List Byte) (s : State α) :
    let s' := putvalue name vsnormal quoted (isset name false s.env) flag s
    let g := Seg.value quoted ifs (parameter name s.env)
    s'.dest = s.dest ++ g.bytes ∧ s'.regions = s.regions ++ regionsFrom s.dest.length [g] := by
  intro s' g
  have hdest : s'.dest = s.dest ++ g.bytes := by
    rw [value_bytes]
    refine ((putvalue_frame _ _ _ _ _ _).2.2.2).trans ?_
    rw [parameter]
    by_cases hset : isset name false s.env = true
    · rw [if_pos ⟨hset, by decide⟩, if_pos hset, inserted_full quoted hname hat hfull]
    · rw [if_neg fun h => hset h.1, if_neg hset]
      rfl
  refine ⟨hdest, ?_⟩
  rw [regionsFrom_value, ← List.length_append, ← hdest]
  have hs' : s' = _ := putvalue_normal quoted name (isset name false s.env) flag s
  rw [hs']
  cases quoted with
  | true =>
    rw [if_pos rfl, List.append_nil]
    dsimp only
    rw [if_neg fun h => h.elim (fun h => h rfl) fun h => hat ((headD_at hname).1 h.1)]
    split <;> rfl
  | false =>
    dsimp only
    rw [if_pos (Or.inl Bool.false_ne_true)]
    split <;> rfl

theorem segs_cons (s' : State α) {g : Seg} {segs : List Seg}
    (h : s'.dest = s.dest ++ g.bytes ∧ s'.regions = s.regions ++ regionsFrom s.dest.length [g])
    (h' : r.dest = s'.dest ++ segs.flatMap Seg.bytes ∧
      r.regions = s'.regions ++ regionsFrom s'.dest.length segs) :
    r.dest = s.dest ++ (g :: segs).flatMap Seg.bytes ∧
      r.regions = s.regions ++ regionsFrom s.dest.length (g :: segs) := by
  obtain ⟨hdest, hregions⟩ := h
  obtain ⟨hdest', hregions'⟩ := h'
  rw [hdest, List.append_assoc] at hdest'
  rw [hregions, hdest, List.length_append, List.append_assoc] at hregions'
  rw [regionsFrom_cons]
  exact ⟨hdest', hregions'⟩

theorem run_segs (ifs : List Byte) (hfull : flag.full = true)
    (hrun : parts.word.run w flag s = .ok r) :
    r.dest = s.dest ++ (parts.segs w ifs flag s).flatMap Seg.bytes ∧
      r.regions = s.regions ++ regionsFrom s.dest.length (parts.segs w ifs flag s) := by
  have hquotes : flag.quotes = true := by simp [Flags.quotes, hfull]
  induction parts generalizing s with
  | nil =>
    obtain rfl : s = r := by simpa [Parts.word, Word.run] using hrun
    simp [Parts.segs, regionsFrom]
  | null rest ih =>
    exact segs_cons s (g := .quoted [])
      ⟨(List.append_nil _).symm, (List.append_nil _).symm⟩ (ih hrun)
  | lit c hc rest ih =>
    exact segs_cons (s.put [c]) (g := .literal [c] (by simp))
      ⟨rfl, (List.append_nil _).symm⟩ (ih hrun)
  | esc c rest ih =>
    rw [Parts.word, Word.run, if_pos hquotes] at hrun
    exact segs_cons (s.put [ctlesc, c]) (g := .literal [ctlesc, c] (by simp))
      ⟨rfl, (List.append_nil _).symm⟩ (ih hrun)
  | mark quoted cmd rest ih =>
    rw [Parts.word, Word.run] at hrun
    cases hback : expbackq w cmd quoted flag s with
    | error e => simp [hback] at hrun
    | ok s' =>
      simp only [hback] at hrun
      obtain ⟨output, env, heval, hdest, hregions⟩ := expbackq_full quoted hfull hback
      have hvalue := value_bytes quoted ifs (printed output)
      rw [← hvalue] at hdest
      rw [hdest, List.length_append, ← regionsFrom_value quoted ifs] at hregions
      simp only [Parts.segs, heval, hback]
      exact segs_cons _ ⟨hdest, hregions⟩ (ih hrun)
  | simple quoted name hname hat rest ih =>
    simp only [Parts.word, Word.run] at hrun
    split at hrun
    · simp at hrun
    · rw [Parts.segs]
      refine segs_cons _ ?_ (ih hrun)
      by_cases h64 : name = [64]
      · subst h64
        obtain rfl : quoted = true := hat.resolve_right fun h => h rfl
        rw [if_pos rfl]
        exact putvalue_params hfull s
      · rw [if_neg h64]
        exact putvalue_value hname h64 hfull quoted ifs s

theorem forall_mem_intercalate {β : Type} {sep : List β} {P : β → Prop} (hsep : ∀ u ∈ sep, P u)
    (ls : List (List β)) (hls : ∀ l ∈ ls, ∀ u ∈ l, P u) : ∀ u ∈ sep.intercalate ls, P u := by
  match ls with
  | [] => exact fun u hu => absurd hu (by simp [List.intercalate])
  | [l] => simpa [List.intercalate] using hls
  | l :: l' :: ls =>
    obtain ⟨hl, hls⟩ := List.forall_mem_cons.1 hls
    have ih := forall_mem_intercalate hsep (l' :: ls) hls
    intro u hu
    rw [List.intercalate_cons_cons, List.mem_append, List.mem_append] at hu
    exact hu.elim (fun hu => hu.elim (hl u) (hsep u)) (ih u)

theorem segs_fit (ifs : List Byte) : ∀ g ∈ parts.segs w ifs flag s,
    (∀ b, g = .quoted b → 0 ∉ b) → g.Fits ifs := by
  have hquoted : ∀ b : List Byte, 0 ∉ b → b.head? ≠ some 0 := fun b hb => by
    cases b with
    | nil => simp
    | cons c b => simpa using fun h : c = 0 => hb (h ▸ List.mem_cons_self)
  have hmap : ∀ (quoted nulonly : Bool) (l : List Byte),
      ∀ u ∈ l.map (charSym quoted (delims ifs nulonly)), Fits (delims ifs nulonly) u :=
    fun quoted nulonly l u hu => by
      obtain ⟨c, -, rfl⟩ := List.mem_map.1 hu
      exact charSym_fits quoted c
  have hvalue : ∀ (quoted : Bool) (v : List Byte),
      (∀ b, Seg.value quoted ifs v = .quoted b → 0 ∉ b) → (Seg.value quoted ifs v).Fits ifs :=
    fun quoted v h => by
      cases quoted with
      | true => exact hquoted _ (h _ rfl)
      | false => exact hmap false false v
  have hparams : ∀ ps : List (List Byte),
      (∀ b, Seg.params ps = .quoted b → 0 ∉ b) → (Seg.params ps).Fits ifs := fun ps h => by
    match ps with
    | [] => exact fun u hu => absurd hu (by simp [List.intercalate])
    | [p] => exact hquoted _ (h _ rfl)
    | p :: p' :: ps =>
      refine forall_mem_intercalate (fun u hu => ?_) _ fun us hus => ?_
      · obtain rfl := List.mem_singleton.1 hu
        exact ⟨List.mem_singleton_self _, by decide, rfl⟩
      · obtain ⟨p, -, rfl⟩ := List.mem_map.1 hus
        exact hmap true true p
  induction parts generalizing s with
  | nil => simp [Parts.segs]
  | null rest ih => exact List.forall_mem_cons.2 ⟨fun _ => by simp [Seg.Fits], ih⟩
  | lit c hc rest ih =>
    refine List.forall_mem_cons.2 ⟨fun _ => ?_, ih⟩
    simpa [Seg.Fits] using fun h : c = 0 => hc (h ▸ List.mem_cons_self)
  | esc c rest ih => exact List.forall_mem_cons.2 ⟨fun _ => by simp [Seg.Fits, ctlesc], ih⟩
  | mark quoted cmd rest ih =>
    simp only [Parts.segs]
    split
    · exact List.forall_mem_cons.2 ⟨hvalue quoted _, ih⟩
    · simp
  | simple quoted name hname hat rest ih =>
    rw [Parts.segs]
    refine List.forall_mem_cons.2 ⟨?_, ih⟩
    split
    · exact hparams _
    · exact hvalue quoted _

theorem segs_unquoted (ifs : List Byte) (h : parts.Unquoted) : ∀ g ∈ parts.segs w ifs flag s,
    (∀ b, g ≠ .quoted b) ∧ g.isArgs = false ∧ ∀ nparam, ∀ t ∈ g.toks nparam, t.Plain := by
  have hsyms : ∀ us : List (Sym Byte), ∀ t ∈ Tok.edge :: stretch false us, t.Plain := by
    intro us t ht
    simp only [stretch, List.mem_cons, List.mem_append, List.mem_map, List.not_mem_nil,
      or_false] at ht
    rcases ht with rfl | ⟨u, -, rfl⟩ | rfl
    · exact trivial
    · cases u <;> exact trivial
    · exact trivial
  have hexpansion : ∀ us : List (Sym Byte), (∀ b, Seg.expansion us ≠ .quoted b) ∧
      (Seg.expansion us).isArgs = false ∧
      ∀ nparam, ∀ t ∈ (Seg.expansion us).toks nparam, t.Plain :=
    fun us => ⟨fun b => by simp, rfl, fun _ => hsyms us⟩
  have hliteral : ∀ (b : List Byte) (hb : b ≠ []), (∀ b', Seg.literal b hb ≠ .quoted b') ∧
      (Seg.literal b hb).isArgs = false ∧
      ∀ nparam, ∀ t ∈ (Seg.literal b hb).toks nparam, t.Plain :=
    fun b hb => ⟨fun b => by simp, rfl, fun _ t ht => by
      obtain rfl := List.mem_singleton.1 ht
      exact trivial⟩
  induction parts generalizing s with
  | nil => simp [Parts.segs]
  | null rest ih => exact h.elim
  | lit c hc rest ih => exact List.forall_mem_cons.2 ⟨hliteral _ _, ih h⟩
  | esc c rest ih => exact List.forall_mem_cons.2 ⟨hliteral _ _, ih h⟩
  | mark quoted cmd rest ih =>
    obtain ⟨rfl, h⟩ := h
    simp only [Parts.segs]
    split
    · exact List.forall_mem_cons.2 ⟨hexpansion _, ih h⟩
    · simp
  | simple quoted name hname hat rest ih =>
    obtain ⟨rfl, h⟩ := h
    rw [Parts.segs, if_neg (hat.resolve_left Bool.false_ne_true)]
    exact List.forall_mem_cons.2 ⟨hexpansion _, ih h⟩

theorem segs_ne_nil (ifs : List Byte) (h : parts ≠ .nil) (hrun : parts.word.run w flag s = .ok r) :
    parts.segs w ifs flag s ≠ [] := by
  cases parts with
  | nil => exact absurd rfl h
  | null rest => exact List.cons_ne_nil _ _
  | lit c hc rest => exact List.cons_ne_nil _ _
  | esc c rest => exact List.cons_ne_nil _ _
  | mark quoted cmd rest =>
    rw [Parts.word, Word.run] at hrun
    cases hback : expbackq w cmd quoted flag s with
    | error e => simp [hback] at hrun
    | ok s' =>
      cases heval : w.evalbackcmd cmd s.env with
      | error m => simp [expbackq, heval] at hback
      | ok output => simp [Parts.segs, heval, hback]
  | simple quoted name hname hat rest => exact List.cons_ne_nil _ _

theorem fields_of_no_regions (nparam : Nat) (segs : List Seg) {o : Nat}
    (h : regionsFrom o segs = []) (p : Option (List Byte)) (white : Bool)
    (hp : p.isSome = true ∨ segs ≠ []) :
    fields p white (segs.flatMap (Seg.toks nparam)) = [p.getD [] ++ segs.flatMap Seg.bytes] := by
  induction segs generalizing o p white with
  | nil =>
    obtain ⟨p, rfl⟩ := Option.isSome_iff_exists.1 (hp.resolve_right fun h => h rfl)
    simp [fields]
  | cons g segs ih =>
    cases g with
    | literal b hb =>
      have := ih h (some (p.getD [] ++ b)) false (Or.inl rfl)
      rw [List.flatMap_cons, List.flatMap_cons, ← List.append_assoc]
      exact this
    | quoted b =>
      rw [List.flatMap_cons, List.flatMap_cons, ← List.append_assoc]
      by_cases hb : b = []
      · subst hb
        rw [Seg.bytes, List.append_nil]
        exact ih h (some (p.getD [])) false (Or.inl rfl)
      · rw [Seg.toks, dif_neg hb]
        exact ih h (some (p.getD [] ++ b)) false (Or.inl rfl)
    | expansion us => simp [regionsFrom] at h
    | args any us => simp [regionsFrom] at h

theorem split_iff_of_run (hbq : parts.word.marks <+: s.argbackq) (hfull : flag.full = true)
    (hdest : s.dest = []) (hregions : s.regions = []) (hrun : parts.word.run w flag s = .ok r) :
    Split w parts flag s ↔
      ifsbreakup (getifs r.env) r.env.params.length
          ((parts.segs w (getifs r.env) flag s).flatMap Seg.bytes)
          (regionsFrom 0 (parts.segs w (getifs r.env) flag s)) =
        fields none false (parts.toks w (getifs r.env) r.env.params.length flag s) := by
  obtain ⟨hd, hr⟩ := run_segs (getifs r.env) hfull hrun
  rw [hdest, List.nil_append] at hd
  rw [hregions, List.nil_append, hdest] at hr
  constructor
  · rintro ⟨turns, hturns⟩
    obtain ⟨r', hr', hfields⟩ := hturns _ (Nat.le_max_left turns parts.word.size)
    rw [expand_parts hbq hrun (Nat.le_max_right turns parts.word.size)] at hr'
    obtain rfl : r = r' := by simpa using hr'
    rwa [hd, hr] at hfields
  · intro hfields
    refine ⟨parts.word.size, fun n hn => ⟨r, expand_parts hbq hrun hn, ?_⟩⟩
    rwa [hd, hr]

theorem string_ne_nil {segs : List Seg} (hne : segs ≠ []) (h : ∀ g ∈ segs, ∀ b, g ≠ .quoted b) :
    regionsFrom 0 segs ≠ [] ∨ segs.flatMap Seg.bytes ≠ [] := by
  cases segs with
  | nil => exact absurd rfl hne
  | cons g segs =>
    cases g with
    | literal b hb => exact Or.inr (by simp [Seg.bytes, hb])
    | quoted b => exact absurd rfl (h _ List.mem_cons_self b)
    | expansion us => exact Or.inl (by simp [regionsFrom])
    | args any us => exact Or.inl (by simp [regionsFrom])

theorem split_of_unquoted (h : parts.Unquoted) (hne : parts ≠ .nil) (hfull : flag.full = true)
    (hbq : parts.word.marks <+: s.argbackq) (hdest : s.dest = []) (hregions : s.regions = [])
    (hrun : parts.word.run w flag s = .ok r) (hesc : ctlesc ∉ getifs r.env) :
    Split w parts flag s ↔
      fieldsByStretch [] false false (parts.toks w (getifs r.env) r.env.params.length flag s) =
        fields none false (parts.toks w (getifs r.env) r.env.params.length flag s) := by
  have hunquoted : ∀ g ∈ parts.segs w (getifs r.env) flag s, (∀ b, g ≠ .quoted b) ∧
      g.isArgs = false ∧ ∀ nparam, ∀ t ∈ g.toks nparam, t.Plain := segs_unquoted (getifs r.env) h
  rw [split_iff_of_run hbq hfull hdest hregions hrun, ifsbreakup_segs hesc _ _
    (string_ne_nil (segs_ne_nil _ hne hrun) fun g hg => (hunquoted g hg).1)
    (fun g hg => segs_fit _ g hg fun b hb => absurd hb ((hunquoted g hg).1 b))
    (Or.inr fun g hg => (hunquoted g hg).2.1)]
  rfl

/-- A word is split as it should be exactly when no delimiter in it is torn by the end of an
expansion. -/
theorem split_iff (h : parts.Unquoted) (hne : parts ≠ .nil) (hfull : flag.full = true)
    (hbq : parts.word.marks <+: s.argbackq) (hdest : s.dest = []) (hregions : s.regions = [])
    (hrun : parts.word.run w flag s = .ok r) (hesc : ctlesc ∉ getifs r.env) :
    Split w parts flag s ↔
      torn .none (parts.toks w (getifs r.env) r.env.params.length flag s) = false := by
  refine (split_of_unquoted h hne hfull hbq hdest hregions hrun hesc).trans
    (fieldsByStretch_eq_iff _ fun t ht => ?_)
  obtain ⟨g, hg, ht⟩ := List.mem_flatMap.1 ht
  exact (segs_unquoted _ h g hg).2.2 _ t ht

/-- The string has no region, or no field is lost or doubled where expansions and quoted parts
meet. -/
def Parts.Kept (w : World α) (ifs : List Byte) (nparam : Nat) (parts : Parts α) (flag : Flags)
    (s : State α) : Prop :=
  regionsFrom 0 (parts.segs w ifs flag s) = [] ∨
    Stand.sound .none (parts.toks w ifs nparam flag s) = true

/-- Such a word has the fields it should have, with those of its quoted parameters. -/
theorem split_of_kept (hne : parts ≠ .nil) (hfull : flag.full = true)
    (hbq : parts.word.marks <+: s.argbackq) (hdest : s.dest = []) (hregions : s.regions = [])
    (hrun : parts.word.run w flag s = .ok r) (hesc : ctlesc ∉ getifs r.env)
    (hnul : ∀ g ∈ parts.segs w (getifs r.env) flag s, g.NulFree)
    (hkept : parts.Kept w (getifs r.env) r.env.params.length flag s) : Split w parts flag s := by
  have hfit : ∀ g ∈ parts.segs w (getifs r.env) flag s, g.Fits (getifs r.env) :=
    fun g hg => segs_fit _ g hg fun b hb => by
      subst hb
      exact hnul _ hg
  rw [split_iff_of_run hbq hfull hdest hregions hrun]
  by_cases hreg : regionsFrom 0 (parts.segs w (getifs r.env) flag s) = []
  · have hsingle := fields_of_no_regions r.env.params.length _ hreg none false
      (Or.inr (segs_ne_nil _ hne hrun))
    rw [hreg]
    exact hsingle.symm
  · rw [ifsbreakup_segs hesc _ _ (Or.inl hreg) hfit (Or.inl hnul)]
    exact fields_sound _ (s := .none) ⟨rfl, rfl, rfl, rfl⟩ (hkept.resolve_left hreg)

end

/-- The state at the start of a word, with the variable `v` set. -/
def start (value : List Byte) (ifs : Option (List Byte)) (params : List (List Byte)) :
    State Nat :=
  let vars (v : List Byte) :=
    if v = [118] then some value else if v = [73, 70, 83] then ifs else none
  ⟨⟨[], [], []⟩, { blank with vars := vars, params := params }, []⟩

def full : Flags := ⟨true, true, false, false, false⟩

theorem named_v : Named [118] := Or.inl ⟨rfl, List.forall_mem_singleton.2 rfl⟩

theorem named_at : Named [64] := Or.inr ⟨64, rfl, rfl⟩

/-- `$v`, with the value `a b`. -/
theorem split_variable :
    Split quiet (.simple false [118] named_v (by decide) .nil) full
      (start [97, 32, 98] none []) := by
  have h : (Parts.simple false [118] named_v (by decide) .nil : Parts Nat).Unquoted :=
    ⟨rfl, trivial⟩
  exact (split_iff h (by simp) rfl List.nil_prefix rfl rfl rfl (by decide)).2 rfl

/-- `x$v` with the value ` :y` and `IFS` a space and a colon: there is an empty field between `x`
and `y`. -/
theorem not_split_literal : ¬ ∀ (w : World Nat) (parts : Parts Nat) (flag : Flags)
    (s r : State Nat), parts.Unquoted → parts ≠ .nil → flag.full = true →
      parts.word.marks <+: s.argbackq → s.dest = [] → s.regions = [] →
      parts.word.run w flag s = .ok r → ctlesc ∉ getifs r.env → Split w parts flag s := by
  intro h
  have hunquoted : (Parts.lit 120 (by decide) (.simple false [118] named_v (by decide) .nil) :
      Parts Nat).Unquoted := ⟨rfl, trivial⟩
  have hsplit := h quiet _ full (start [32, 58, 121] (some [32, 58]) []) _ hunquoted (by simp) rfl
    List.nil_prefix rfl rfl rfl (by decide)
  have hfields := (split_of_unquoted hunquoted (by simp) rfl List.nil_prefix rfl rfl rfl
    (by decide)).1 hsplit
  exact absurd hfields (by decide)

/-- `x"$@"`, with the parameters `a`, an empty one and `b`. -/
theorem split_params :
    Split quiet (.lit 120 (by decide) (.simple true [64] named_at (by decide) .nil)) full
      (start [] none [[97], [], [98]]) :=
  split_of_kept (by simp) rfl List.nil_prefix rfl rfl rfl (by decide) (by decide) (Or.inr rfl)

/-- `""$v` with `v` empty: there is no field. -/
theorem not_split_null : ¬ ∀ (w : World Nat) (parts : Parts Nat) (flag : Flags) (s r : State Nat),
    parts ≠ .nil → flag.full = true → parts.word.marks <+: s.argbackq → s.dest = [] →
      s.regions = [] → parts.word.run w flag s = .ok r → ctlesc ∉ getifs r.env →
      (∀ g ∈ parts.segs w (getifs r.env) flag s, g.NulFree) → Split w parts flag s := by
  intro h
  have hbq : (Parts.null (.simple false [118] named_v (by decide) .nil) :
      Parts Nat).word.marks <+: (start [] none []).argbackq := List.nil_prefix
  have hsplit := h quiet _ full _ _ (by simp) rfl hbq rfl rfl rfl (by decide) (by decide)
  have hbreak := (split_iff_of_run hbq rfl rfl rfl rfl).1 hsplit
  exact absurd hbreak (by decide)

end Bsdi.Sh.Param
