import Bsdi.Db.Btree.Roomy

/-!
# Where `bt_psplit` cuts a page

The entries of the page, the new one among them, go to the left page up to the first one at which
they take half of a page.
-/

namespace Bsdi.Db

open Bsdi.Lib

namespace Btree

section

variable (c : Config) (items : List Item) (skip : Nat) (item : Item)

/-- The bytes of the first `k` entries of the page with the new item at its place. -/
def firstBytes (k : Nat) : Nat := itemBytes ((items.insertIdx skip item).take k)

/-- Entry `j` has its key on overflow pages; this is not known of the new item. -/
def entryBig (j : Nat) : Bool :=
  if j = skip then false else ((items.insertIdx skip item)[j]?.map Item.isBigkey).getD false

/-- Entry `j` would fill the left page. It is looked for only from the new slot on, and as long as
there are items to copy. -/
def Overfills (j : Nat) : Prop :=
  skip ≤ j ∧ skip < items.length ∧ c.psize - btdataoff ≤ firstBytes items skip item (j + 1)

/-- The left page does not end with entry `j`: the entries up to it take less than half of a page,
or it has an overflow key and is not the fourth to reach half of a page. -/
def Passed (j : Nat) : Prop :=
  ¬ Overfills c items skip item j ∧
    (firstBytes items skip item (j + 1) < (c.psize - btdataoff) / 2 ∨
      entryBig items skip item j = true ∧
        firstBytes items skip item (j - 2) < (c.psize - btdataoff) / 2)

instance (j : Nat) : Decidable (Overfills c items skip item j) :=
  inferInstanceAs (Decidable (_ ∧ _ ∧ _))

instance (j : Nat) : Decidable (Passed c items skip item j) :=
  inferInstanceAs (Decidable (_ ∧ _))

/-- The left page gets the first `k` entries: it ends before or behind the first entry that is not
passed. -/
inductive LeftCut : Nat → Prop
  | before {k : Nat} (passed : ∀ j < k, Passed c items skip item j)
      (fill : Overfills c items skip item k) : LeftCut k
  | behind {k : Nat} (passed : ∀ j < k, Passed c items skip item j)
      (fill : ¬ Overfills c items skip item k) (stop : ¬ Passed c items skip item k) :
      LeftCut (k + 1)

end

section

variable {c : Config} {items : List Item} {skip : Nat} {item : Item}

theorem LeftCut.first {k : Nat} (h : LeftCut c items skip item k) :
    ∃ j, (∀ i < j, Passed c items skip item i) ∧ ¬ Passed c items skip item j ∧
      k = if Overfills c items skip item j then j else j + 1 := by
  cases h with
  | before hpassed hover => exact ⟨k, hpassed, fun hk => hk.1 hover, by rw [if_pos hover]⟩
  | behind hpassed hover hstop => exact ⟨_, hpassed, hstop, by rw [if_neg hover]⟩

theorem LeftCut.unique {k k' : Nat} (h : LeftCut c items skip item k)
    (h' : LeftCut c items skip item k') : k = k' := by
  obtain ⟨j, hpassed, hstop, rfl⟩ := h.first
  obtain ⟨j', hpassed', hstop', rfl⟩ := h'.first
  have hj : j = j' := by
    rcases Nat.lt_trichotomy j j' with hlt | heq | hgt
    · exact absurd (hpassed' j hlt) hstop
    · exact heq
    · exact absurd (hpassed j' hgt) hstop'
  rw [hj]

theorem firstBytes_zero : firstBytes items skip item 0 = 0 := rfl

theorem firstBytes_succ {j : Nat} {e : Item} (h : (items.insertIdx skip item)[j]? = some e) :
    firstBytes items skip item (j + 1) = firstBytes items skip item j + e.nbytes := by
  rw [firstBytes, firstBytes, List.take_add_one, h, itemBytes, itemBytes, List.map_append,
    List.sum_append]
  simp

theorem firstBytes_mono (items : List Item) (skip : Nat) (item : Item) {j k : Nat} (h : j ≤ k) :
    firstBytes items skip item j ≤ firstBytes items skip item k := by
  induction h with
  | refl => exact Nat.le_refl _
  | @step k _ ih =>
    refine Nat.le_trans ih ?_
    cases hk : (items.insertIdx skip item)[k]? with
    | none =>
      rw [firstBytes, firstBytes, List.take_add_one, hk]
      simp
    | some e =>
      rw [firstBytes_succ hk]
      omega

theorem entry_before (item : Item) {j : Nat} {e : Item} {rest : List Item} (hj : j < skip)
    (hdrop : items.drop j = e :: rest) : firstBytes items skip item (j + 1) =
      firstBytes items skip item j + e.nbytes ∧ entryBig items skip item j = e.isBigkey := by
  have hitem : items[j]? = some e := by
    rw [← List.head?_drop, hdrop]
    rfl
  have hentry : (items.insertIdx skip item)[j]? = some e := by
    rw [List.getElem?_insertIdx_of_lt hj, hitem]
  refine ⟨firstBytes_succ hentry, ?_⟩
  rw [entryBig, if_neg (by omega), hentry]
  rfl

theorem entry_at (item : Item) (hskip : skip ≤ items.length) :
    firstBytes items skip item (skip + 1) = firstBytes items skip item skip + item.nbytes ∧ entryBig items skip item skip = false := by
  refine ⟨firstBytes_succ ?_, by rw [entryBig, if_pos rfl]⟩
  rw [List.getElem?_insertIdx_self, if_pos hskip]

theorem entry_behind (item : Item) {j : Nat} {e : Item} {rest : List Item} (hj : skip ≤ j)
    (hdrop : items.drop j = e :: rest) : firstBytes items skip item (j + 2) =
      firstBytes items skip item (j + 1) + e.nbytes ∧
        entryBig items skip item (j + 1) = e.isBigkey := by
  have hitem : items[j]? = some e := by
    rw [← List.head?_drop, hdrop]
    rfl
  have hentry : (items.insertIdx skip item)[j + 1]? = some e := by
    rw [List.getElem?_insertIdx_of_gt (by omega), Nat.add_sub_cancel, hitem]
  refine ⟨firstBytes_succ hentry, ?_⟩
  rw [entryBig, if_neg (by omega), hentry]
  rfl

/-- `bigkeycnt` counts the entries passed that reach half of a page. -/
def Counted (c : Config) (items : List Item) (skip : Nat) (item : Item) (off cnt : Nat) : Prop :=
  cnt ≤ 3 ∧ ∀ i ≤ off, (c.psize - btdataoff) / 2 ≤ firstBytes items skip item i ↔ off < i + cnt

theorem counted_zero (hhalf : 0 < (c.psize - btdataoff) / 2) : Counted c items skip item 0 0 := by
  refine ⟨Nat.zero_le _, fun i hi => ?_⟩
  obtain rfl : i = 0 := by omega
  rw [firstBytes_zero]
  omega

theorem Counted.three {off cnt : Nat} (h : Counted c items skip item off cnt)
    (hhalf : 0 < (c.psize - btdataoff) / 2) :
    (c.psize - btdataoff) / 2 ≤ firstBytes items skip item (off - 2) ↔ cnt = 3 := by
  have hle := h.1
  have hzero := h.2 0 (Nat.zero_le _)
  rw [firstBytes_zero] at hzero
  rw [h.2 (off - 2) (by omega)]
  omega

theorem Counted.succ {off cnt : Nat} (h : Counted c items skip item off cnt)
    (hbig : (c.psize - btdataoff) / 2 ≤ firstBytes items skip item (off + 1) → cnt ≠ 3) :
    Counted c items skip item (off + 1)
      (if (c.psize - btdataoff) / 2 ≤ firstBytes items skip item (off + 1) then cnt + 1
        else cnt) := by
  obtain ⟨hle, hcount⟩ := h
  split_ifs with hreach
  · refine ⟨by have := hbig hreach; omega, fun i hi => ?_⟩
    rcases Nat.lt_or_eq_of_le hi with hlt | rfl
    · rw [hcount i (by omega)]
      omega
    · exact iff_of_true hreach (by omega)
  · have hzero : cnt = 0 := by
      have hoff := hcount off (Nat.le_refl _)
      have hmono := firstBytes_mono items skip item (Nat.le_add_right off 1)
      omega
    refine ⟨hle, fun i hi => ?_⟩
    have hmono := firstBytes_mono items skip item hi
    omega

/-- The outcome of the loop: the cut, or no item is left for the right page. -/
inductive Scanned (c : Config) (items : List Item) (skip : Nat) (item : Item) (r : Nat × Nat) :
    Prop
  | cut {k : Nat} (le : k ≤ items.length) (cut : LeftCut c items skip item k)
      (eq : r = if skip < k then (k - 1, k - 1) else ((k + indxMod - 1) % indxMod, k))
  | all (passed : ∀ j < items.length, Passed c items skip item j)
      (fill : ¬ Overfills c items skip item items.length) (nxt : r.2 = items.length)
      (off : skip ≤ r.1)

variable (hhalf : 0 < (c.psize - btdataoff) / 2)
include hhalf

theorem passed_iff {off cnt : Nat} (hcount : Counted c items skip item off cnt) :
    Passed c items skip item off ↔ ¬ Overfills c items skip item off ∧
      ¬ ((c.psize - btdataoff) / 2 ≤ firstBytes items skip item (off + 1) ∧
        (entryBig items skip item off = false ∨ cnt = 3)) := by
  have hthree := hcount.three hhalf
  rw [Passed, ← hthree, not_and_or, not_or, Nat.not_le, Nat.not_le, Bool.not_eq_false]

theorem scanned_behind {nxt cnt : Nat} (rest : List Item) (hdrop : items.drop nxt = rest)
    (hskip : skip ≤ nxt) (hle : nxt ≤ items.length)
    (hpassed : ∀ j ≤ nxt, Passed c items skip item j)
    (hcount : Counted c items skip item (nxt + 1) cnt) (ilen : Nat) :
    Scanned c items skip item (psplitScan (c.psize - btdataoff) ((c.psize - btdataoff) / 2) skip
      ilen rest (nxt + 1) nxt (firstBytes items skip item (nxt + 1)) cnt) := by
  induction rest generalizing nxt cnt with
  | nil =>
    have hlen : items.length ≤ nxt := List.drop_eq_nil_iff.1 hdrop
    refine .all (fun j hj => hpassed j (by omega)) ?_ (Nat.le_antisymm hle hlen)
      (Nat.le_succ_of_le hskip)
    exact (hpassed items.length hlen).1
  | cons e rest ih =>
    have hlt : nxt < items.length := by
      by_contra hge
      rw [List.drop_eq_nil_iff.2 (by omega)] at hdrop
      exact nomatch hdrop
    obtain ⟨hbytes, hbig⟩ := entry_behind item hskip hdrop
    have hpass := passed_iff hhalf hcount
    rw [hbig] at hpass
    have hover : Overfills c items skip item (nxt + 1) ↔
        c.psize - btdataoff ≤ firstBytes items skip item (nxt + 1) + e.nbytes := by
      rw [Overfills, hbytes]
      omega
    have hnext : items.drop (nxt + 1) = rest := by rw [← List.tail_drop, hdrop, List.tail_cons]
    have hat : ¬ skip = nxt + 1 := by omega
    rw [psplitScan]
    simp only [hat, false_and, if_false, ← hbytes]
    split_ifs with hfill hstop hreach
    · -- the item would fill the left page
      refine .cut hlt (.before (fun j hj => hpassed j (by omega)) (hover.2 ?_)) ?_
      · rw [← hbytes]
        exact hfill.2
      · rw [if_pos (by omega)]
        rfl
    · -- the left page ends with the item
      have hnot : ¬ Overfills c items skip item (nxt + 1) := by
        rw [hover, ← hbytes]
        omega
      rcases Nat.lt_or_eq_of_le hlt with hmore | hlast
      · refine .cut hmore (.behind (fun j hj => hpassed j (by omega)) hnot ?_) ?_
        · rw [hpass]
          exact fun h => h.2 hstop
        · rw [if_pos (by omega)]
          rfl
      · refine .all (fun j hj => hpassed j (by omega)) ?_ hlast (Nat.le_succ_of_le hskip)
        rw [← hlast]
        exact hnot
    all_goals
      have hmore : Passed c items skip item (nxt + 1) := by
        rw [hpass, hover, ← hbytes]
        exact ⟨by omega, hstop⟩
      have hcount' := hcount.succ (fun hreach hthree => hstop ⟨hreach, .inr hthree⟩)
      refine ih hnext (by omega) hlt (fun j hj => ?_) ?_
      · rcases Nat.lt_or_eq_of_le hj with hj | rfl
        · exact hpassed j (by omega)
        · exact hmore
      · simpa [hreach] using hcount'

theorem scanned_before {nxt cnt : Nat} (rest : List Item) (hdrop : items.drop nxt = rest)
    (hskip : nxt ≤ skip) (hle : skip ≤ items.length) (hmax : items.length < indxMod)
    (hpassed : ∀ j < nxt, Passed c items skip item j)
    (hcount : Counted c items skip item nxt cnt) :
    Scanned c items skip item (psplitScan (c.psize - btdataoff) ((c.psize - btdataoff) / 2) skip
      item.nbytes rest nxt nxt (firstBytes items skip item nxt) cnt) := by
  induction rest generalizing nxt cnt with
  | nil =>
    -- the new item is behind all others and is not looked at
    have hlen : items.length ≤ nxt := List.drop_eq_nil_iff.1 hdrop
    have hnxt : nxt = items.length := by omega
    refine .all (fun j hj => hpassed j (by omega)) ?_ hnxt
      (Nat.le_trans hle (Nat.le_of_eq hnxt.symm))
    rintro ⟨-, hlt, -⟩
    omega
  | cons e rest ih =>
    have hlt : nxt < items.length := by
      by_contra hge
      rw [List.drop_eq_nil_iff.2 (by omega)] at hdrop
      exact nomatch hdrop
    have hpass := passed_iff hhalf hcount
    by_cases hat : skip = nxt
    · subst hat
      obtain ⟨hbytes, hbig⟩ := entry_at item hle
      rw [hbig] at hpass
      have hover : Overfills c items skip item skip ↔
          c.psize - btdataoff ≤ firstBytes items skip item skip + item.nbytes := by
        rw [Overfills, hbytes]
        omega
      by_cases hfill : c.psize - btdataoff ≤ firstBytes items skip item skip + item.nbytes
      · refine .cut (Nat.le_of_lt hlt) (.before hpassed (hover.2 hfill)) ?_
        rw [psplitScan, if_pos ⟨rfl, hfill⟩, if_neg (Nat.lt_irrefl _)]
      by_cases hstop : (c.psize - btdataoff) / 2 ≤ firstBytes items skip item skip + item.nbytes
      · refine .cut hlt (.behind hpassed (by rwa [hover]) ?_) ?_
        · rw [hpass, hbytes]
          exact fun h => h.2 ⟨hstop, .inl rfl⟩
        · rw [psplitScan, if_neg (fun h => hfill h.2), if_pos ⟨rfl, hstop⟩,
            if_pos (Nat.lt_succ_self _)]
          rfl
      -- the loop goes on with the same item, one slot further
      have hmore : Passed c items skip item skip := by
        rw [hpass, hover, hbytes]
        exact ⟨hfill, fun h => hstop h.1⟩
      have hcount' := hcount.succ (fun hreach _ => hstop (hbytes ▸ hreach))
      rw [hbytes, if_neg hstop] at hcount'
      have hpassed' : ∀ j ≤ skip, Passed c items skip item j := by
        intro j hj
        rcases Nat.lt_or_eq_of_le hj with hj | rfl
        · exact hpassed j hj
        · exact hmore
      have hgo := scanned_behind hhalf (e :: rest) hdrop (Nat.le_refl _) hle hpassed' hcount'
        item.nbytes
      rw [hbytes] at hgo
      have hsame : psplitScan (c.psize - btdataoff) ((c.psize - btdataoff) / 2) skip item.nbytes
          (e :: rest) skip skip (firstBytes items skip item skip) cnt =
        psplitScan (c.psize - btdataoff) ((c.psize - btdataoff) / 2) skip item.nbytes
          (e :: rest) (skip + 1) skip (firstBytes items skip item skip + item.nbytes) cnt := by
        simp only [psplitScan, true_and, hfill, hstop, if_false, if_true,
          Nat.ne_of_lt (Nat.lt_succ_self skip), false_and]
      rw [hsame]
      exact hgo
    · have hbefore : nxt < skip := by omega
      obtain ⟨hbytes, hbig⟩ := entry_before item hbefore hdrop
      have hnot : ¬ Overfills c items skip item nxt := fun h => by
        have := h.1
        omega
      have hnot' : ¬ skip ≤ nxt := by omega
      have hnext : items.drop (nxt + 1) = rest := by rw [← List.tail_drop, hdrop, List.tail_cons]
      rw [hbig] at hpass
      rw [psplitScan]
      simp only [hat, hnot', false_and, if_false, ← hbytes]
      split_ifs with hstop hreach
      · refine .cut hlt (.behind hpassed hnot ?_) ?_
        · rw [hpass]
          exact fun h => h.2 hstop
        · have hdown : (nxt + 1 + indxMod - 1) % indxMod = nxt := by
            simp only [indxMod] at hmax ⊢
            omega
          rw [if_neg (by omega), hdown]
      all_goals
        have hmore : Passed c items skip item nxt := by
          rw [hpass]
          exact ⟨hnot, hstop⟩
        have hcount' := hcount.succ (fun hreach hthree => hstop ⟨hreach, .inr hthree⟩)
        refine ih hnext (by omega) (fun j hj => ?_) ?_
        · rcases Nat.lt_or_eq_of_le (Nat.le_of_lt_succ hj) with hj | rfl
          · exact hpassed j hj
          · exact hmore
        · simpa [hreach] using hcount'

theorem scanned (item : Item) (hle : skip ≤ items.length) (hmax : items.length < indxMod) :
    Scanned c items skip item (psplitScan (c.psize - btdataoff) ((c.psize - btdataoff) / 2) skip
      item.nbytes items 0 0 0 0) :=
  scanned_before hhalf items rfl (Nat.zero_le _) hle hmax (fun j hj => absurd hj (by omega))
    (counted_zero hhalf)

end

section

variable {c : Config} {items : List Item} {skip : Nat} {item : Item} {k : Nat}

theorem entries_left (item : Item) (hskip : skip < k) (hk : k ≤ items.length) :
    (items.insertIdx skip item).take k = (items.take (k - 1)).insertIdx skip item ∧
      (items.insertIdx skip item).drop k = items.drop (k - 1) := by
  have hlen : ((items.take (k - 1)).insertIdx skip item).length = k := by
    rw [List.length_insertIdx_of_le_length (by rw [List.length_take]; omega), List.length_take]
    omega
  have hsplit : items.insertIdx skip item =
      (items.take (k - 1)).insertIdx skip item ++ items.drop (k - 1) := by
    rw [← insertIdx_append_left _ _ (by rw [List.length_take]; omega), List.take_append_drop]
  rw [hsplit]
  exact ⟨List.take_left' hlen, List.drop_left' hlen⟩

theorem entries_right (item : Item) (hskip : k ≤ skip) (hk : k ≤ items.length) :
    (items.insertIdx skip item).take k = items.take k ∧
      (items.insertIdx skip item).drop k = (items.drop k).insertIdx (skip - k) item := by
  have hlen : (items.take k).length = k := by
    rw [List.length_take]
    omega
  have hsplit : items.insertIdx skip item =
      items.take k ++ (items.drop k).insertIdx (skip - k) item := by
    have happend := insertIdx_append_right (x := item) (items.take k) (items.drop k) (i := skip)
      (by omega)
    rwa [List.take_append_drop, hlen] at happend
  rw [hsplit]
  exact ⟨List.take_left' hlen, List.drop_left' hlen⟩

theorem halves_of_scan (hlen : items.length + 2 < indxMod / indxSize) (hskip : skip ≤ items.length)
    (hpos : 0 < k) (hk : k ≤ items.length) (halone : ¬ (skip = 0 ∧ k = 1))
    (hr : psplitScan (c.psize - btdataoff) ((c.psize - btdataoff) / 2) skip item.nbytes items
      0 0 0 0 = if skip < k then (k - 1, k - 1) else ((k + indxMod - 1) % indxMod, k)) :
    btPsplit c items skip item.nbytes =
        (if skip < k then
          ⟨((items.take (k - 1)).map some).insertIdx skip none, (items.drop (k - 1)).map some,
            true, skip, k - 1⟩
        else
          ⟨(items.take k).map some, ((items.drop k).map some).insertIdx (skip - k) none, false,
            skip - k, k⟩) ∧
      halves c items skip item = (((items.insertIdx skip item).take k).map some,
        ((items.insertIdx skip item).drop k).map some) := by
  have hs : btPsplit c items skip item.nbytes = psplitAt items skip
      (if skip < k then (k - 1, k - 1) else ((k + indxMod - 1) % indxMod, k)) := by
    rw [btPsplit, hr]
  by_cases hon : skip < k
  · obtain ⟨htake, hdrop⟩ := entries_left item hon hk
    rw [if_pos hon] at hs ⊢
    rw [psplitAt_left hlen rfl (by simp only; omega) (by simp only; omega)
      (by simp only; omega)] at hs
    refine ⟨hs, ?_⟩
    rw [halves, hs, htake, hdrop, List.map_insertIdx]
    simp only [if_true, set_insertIdx]
  · obtain ⟨htake, hdrop⟩ := entries_right item (Nat.not_lt.1 hon) hk
    have hdown : (k + indxMod - 1) % indxMod + 1 = k := by
      simp only [indxMod, indxSize] at hlen ⊢
      omega
    rw [if_neg hon] at hs ⊢
    rw [psplitAt_right (r := ((k + indxMod - 1) % indxMod, k)) hlen hskip hdown
      (Nat.not_lt.1 hon) hk] at hs
    refine ⟨hs, ?_⟩
    rw [halves, hs, htake, hdrop, List.map_insertIdx]
    simp only [Bool.false_eq_true, if_false, set_insertIdx]

/-- What `bt_psplit` is for: two pages that are not empty and not overfull, and their entries are
those of the page with the new item at its place. -/
structure Divided (c : Config) (items : List Item) (skip : Nat) (item : Item) : Prop where
  left_ne : (halves c items skip item).1 ≠ []
  right_ne : (halves c items skip item).2 ≠ []
  left_fits : Fits c (halves c items skip item).1
  right_fits : Fits c (halves c items skip item).2
  entries : (halves c items skip item).1 ++ (halves c items skip item).2 =
    (items.map some).insertIdx skip (some item)

/-- A cut that leaves an entry for both pages, not only the new one for the left page, and room
for the entries on the page that gets the new one. -/
structure GoodCut (c : Config) (items : List Item) (skip : Nat) (item : Item) (k : Nat) :
    Prop where
  pos : 0 < k
  le : k ≤ items.length
  alone : ¬ (skip = 0 ∧ k = 1)
  left : skip < k → firstBytes items skip item k + indxSize * k ≤ c.psize - btdataoff
  right : k ≤ skip → itemBytes ((items.insertIdx skip item).drop k) +
    indxSize * (items.length + 1 - k) ≤ c.psize - btdataoff

theorem fits_map (items : List Item) :
    Fits c (items.map some) ↔ btdataoff + indxSize * items.length + itemBytes items ≤ c.psize := by
  rw [Fits, List.length_map, sum_slotBytes]

theorem GoodCut.divided (h : GoodCut c items skip item k) (hfits : Fits c (items.map some))
    (hskip : skip ≤ items.length)
    (hhalves : halves c items skip item = (((items.insertIdx skip item).take k).map some,
      ((items.insertIdx skip item).drop k).map some)) : Divided c items skip item := by
  have hentries : (items.insertIdx skip item).length = items.length + 1 :=
    List.length_insertIdx_of_le_length hskip _
  have hle := h.le
  have hpos := h.pos
  rw [fits_map] at hfits
  constructor <;> rw [hhalves]
  · intro hnil
    have hzero := congrArg List.length hnil
    simp only [List.length_map, List.length_take, hentries, List.length_nil] at hzero
    omega
  · intro hnil
    have hzero := congrArg List.length hnil
    simp only [List.length_map, List.length_drop, hentries, List.length_nil] at hzero
    omega
  · rw [fits_map, List.length_take, hentries, Nat.min_eq_left (by omega)]
    by_cases hon : skip < k
    · have hroom := h.left hon
      rw [firstBytes] at hroom
      omega
    · rw [(entries_right item (Nat.not_lt.1 hon) hle).1]
      have hsum := itemBytes_take_drop items k
      simp only [indxSize] at hfits ⊢
      omega
  · rw [fits_map, List.length_drop, hentries]
    by_cases hon : skip < k
    · rw [(entries_left item hon hle).2]
      have hsum := itemBytes_take_drop items (k - 1)
      simp only [indxSize] at hfits ⊢
      omega
    · have hroom := h.right (Nat.not_lt.1 hon)
      omega
  · rw [← List.map_append, List.take_append_drop, List.map_insertIdx]

/-- A page divides well just if the cut is a good one. -/
theorem divided_iff (c : Config) (items : List Item) (skip : Nat) (item : Item)
    (hpsize : c.psize ≤ indxMod) (hmin : minpsize ≤ c.psize) (hfits : Fits c (items.map some))
    (hne : items ≠ []) (hskip : skip ≤ items.length) :
    Divided c items skip item ↔ ∃ k, LeftCut c items skip item k ∧ GoodCut c items skip item k := by
  have hfits' := (fits_map items).1 hfits
  have hlenbytes := length_le_itemBytes items
  have hlen : items.length + 2 < indxMod / indxSize := by
    simp only [indxMod, indxSize, btdataoff] at *
    omega
  have hhalf : 0 < (c.psize - btdataoff) / 2 := by
    simp only [minpsize, btdataoff] at *
    omega
  have hscan := scanned hhalf item hskip (by simp only [indxMod, indxSize] at *; omega)
  constructor
  · intro hdiv
    cases hscan with
    | all hpassed hover hnxt hoff =>
      -- the right page gets nothing
      refine absurd ?_ hdiv.right_ne
      have hpos : 0 < items.length := List.length_pos_iff.2 hne
      rw [halves, btPsplit, psplitAt, if_pos hoff]
      simp only [if_true, hnxt, List.drop_length, psplitRight, Nat.ne_of_lt hpos, if_false]
    | cut hle hcut hr =>
      rename_i k
      refine ⟨k, hcut, ?_⟩
      have hpos : 0 < k := by
        by_contra hzero
        obtain rfl : k = 0 := by omega
        -- `off` has wrapped
        have hskip0 : skip = 0 := by
          cases hcut with
          | before _ hover => exact Nat.le_zero.1 hover.1
        refine hdiv.left_ne ?_
        rw [halves, btPsplit, hr]
        subst hskip0
        simp [psplitAt, psplitLeft, indxMod, indxSize]
      have halone : ¬ (skip = 0 ∧ k = 1) := by
        rintro ⟨rfl, rfl⟩
        have hnone := psplitAt_alone (r := (0, 0)) items rfl (Nat.le_refl 0) rfl
        have hhalves : (halves c items 0 item).2 = (psplitAt items 0 (0, 0)).right := by
          rw [halves, btPsplit, hr]
          simp only [Nat.zero_lt_one, if_true, Nat.sub_self, hnone.2]
        have hmem : none ∈ (items.map some).insertIdx 0 (some item) := by
          rw [← hdiv.entries, hhalves]
          exact List.mem_append_right _ hnone.1
        exact none_not_mem_insertIdx (Nat.zero_le _) hmem
      have hhalves := (halves_of_scan hlen hskip hpos hle halone hr).2
      have hentries : (items.insertIdx skip item).length = items.length + 1 :=
        List.length_insertIdx_of_le_length hskip _
      refine ⟨hpos, hle, halone, fun hon => ?_, fun hon => ?_⟩
      · have hroom := hdiv.left_fits
        rw [hhalves, fits_map, List.length_take, hentries, Nat.min_eq_left (by omega)] at hroom
        rw [firstBytes]
        omega
      · have hroom := hdiv.right_fits
        rw [hhalves, fits_map, List.length_drop, hentries] at hroom
        omega
  · rintro ⟨k, hcut, hgood⟩
    cases hscan with
    | all hpassed hover hnxt hoff =>
      -- there is no cut among the items
      exfalso
      have hle := hgood.le
      obtain ⟨j, hbefore, hstop, hk⟩ := hcut.first
      split_ifs at hk with hover'
      · rcases Nat.lt_or_eq_of_le (hk ▸ hle) with hlt | rfl
        · exact hstop (hpassed j hlt)
        · exact hover hover'
      · exact hstop (hpassed j (by omega))
    | cut hle hcut' hr =>
      obtain rfl := hcut.unique hcut'
      exact hgood.divided hfits hskip
        (halves_of_scan hlen hskip hgood.pos hle hgood.alone hr).2

end

def smallConfig : Config := openConfig ⟨false, 512, 2, none, none⟩ 0 100

/-- A pair of a leaf page with a key of `n` bytes. -/
def plainPair (n : Nat) : Item := .bl ⟨List.replicate n 0, [], false, false⟩

theorem divided_iff_hundred : Fits smallConfig ((List.replicate 4 (plainPair 91)).map some) ∧
    Divided smallConfig (List.replicate 4 (plainPair 91)) 0 (plainPair 91) := by
  have hfits : Fits smallConfig ((List.replicate 4 (plainPair 91)).map some) := by
    rw [fits_map]
    decide +kernel
  refine ⟨hfits, (divided_iff smallConfig _ 0 (plainPair 91) (by decide) (by decide) hfits
    (by decide) (by decide)).2 ⟨3, ?_, ?_⟩⟩
  · exact .behind (by decide +kernel) (by decide +kernel) (by decide +kernel)
  · exact ⟨by decide, by decide, by decide, fun _ => by decide +kernel, by decide +kernel⟩

/-- The pairs of a page and a new one before them all go to the left page, which they overfill. -/
theorem divided_overfull :
    Fits smallConfig ([plainPair 223, plainPair 232].map some) ∧
      ¬ Fits smallConfig ([plainPair 3, plainPair 223, plainPair 232].map some) ∧
      232 ≤ smallConfig.ovflsize ∧
      ¬ Divided smallConfig [plainPair 223, plainPair 232] 0 (plainPair 3) := by
  refine ⟨?_, ?_, by decide, fun h => h.right_ne ?_⟩
  · rw [fits_map]
    decide +kernel
  · rw [fits_map]
    decide +kernel
  · decide +kernel

end Btree

end Bsdi.Db
