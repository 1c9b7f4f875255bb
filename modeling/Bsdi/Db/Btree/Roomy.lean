import Bsdi.Db.Btree.FiniteMap
import Mathlib.Algebra.Order.BigOperators.Group.List

/-!
# Pages with room for four items

When every item takes at most a quarter of a page, `bt_psplit` divides every page well: it
stops at half of the bytes, so neither half gets more than three quarters.
-/

namespace Bsdi.Db

open Bsdi.Lib

namespace Btree

variable {c : Config} {t : Btree} {cs : List Chain} {fs : List Pgno}
variable {leaves A B : List Node} {ups : List (List Node)} {x : Node} {key data : Dbt} {bl : BLeaf}
variable {ord : Dbt → Dbt → Int} {items : List Item} {skip : Nat} {item : Item}

def itemBytes (items : List Item) : Nat := (items.map Item.nbytes).sum

@[simp] theorem itemBytes_nil : itemBytes [] = 0 := rfl

@[simp] theorem itemBytes_cons : itemBytes (item :: items) = item.nbytes + itemBytes items := by
  simp [itemBytes]

theorem itemBytes_take_drop (items : List Item) (n : Nat) :
    itemBytes (items.take n) + itemBytes (items.drop n) = itemBytes items := by
  rw [itemBytes, itemBytes, ← List.sum_append, ← List.map_append, List.take_append_drop, itemBytes]

section

variable {full half ilen most nxt used : Nat}

theorem scan_passed_bytes (skip nxt used ilen full : Nat) (hskip : skip ≤ nxt)
    (hsmall : ∀ item ∈ items, item.isBigkey = false ∧ item.nbytes ≤ most)
    (hfull : half + most ≤ full) (hused : used < half) (htotal : half ≤ used + itemBytes items) :
    ∃ n ≤ items.length, psplitScan full half skip ilen items (nxt + 1) nxt used 0 =
        (nxt + n, nxt + n) ∧ half ≤ used + itemBytes (items.take n) ∧
      used + itemBytes (items.take n) < half + most := by
  induction items generalizing nxt used with
  | nil =>
    rw [itemBytes_nil] at htotal
    omega
  | cons item rest ih =>
    obtain ⟨hbig, hbytes⟩ := hsmall item (by simp)
    rw [itemBytes_cons] at htotal
    have hat : ¬ skip = nxt + 1 := by omega
    have hnot : ¬ full ≤ used + item.nbytes := by omega
    rw [psplitScan]
    simp only [hat, hnot, false_and, and_false, if_false, hbig, true_or, and_true]
    split_ifs with hhalf
    · exact ⟨1, by simp, rfl, by simpa using hhalf, by simp; omega⟩
    · obtain ⟨n, hn, heq, hlow, hhigh⟩ := ih (nxt + 1) (used + item.nbytes) (by omega)
        (fun i hi => hsmall i (by simp [hi])) (by omega) (by omega)
      refine ⟨n + 1, by simpa using hn, ?_, ?_, ?_⟩
      · rw [heq, Nat.add_assoc, Nat.add_comm 1 n]
      · rw [List.take_succ_cons, itemBytes_cons]
        omega
      · rw [List.take_succ_cons, itemBytes_cons]
        omega

theorem scan_bytes (items : List Item) (full half skip ilen most nxt used : Nat) (hle : nxt ≤ skip) (hskip : skip ≤ nxt + items.length)
    (hsmall : ∀ item ∈ items, item.isBigkey = false ∧ item.nbytes ≤ most) (hilen : ilen ≤ most)
    (hfull : half + most ≤ full) (hused : used < half)
    (htotal : half ≤ used + ilen + itemBytes items) :
    (∃ n, nxt + n + 1 ≤ skip ∧ psplitScan full half skip ilen items nxt nxt used 0 =
        (nxt + n, nxt + n + 1) ∧ half ≤ used + itemBytes (items.take (n + 1)) ∧
      used + itemBytes (items.take (n + 1)) < half + most) ∨
    ∃ n ≤ items.length, skip ≤ nxt + n ∧ psplitScan full half skip ilen items nxt nxt used 0 =
        (nxt + n, nxt + n) ∧ half ≤ used + ilen + itemBytes (items.take n) ∧
      used + ilen + itemBytes (items.take n) < half + most := by
  induction items generalizing nxt used with
  | nil =>
    rw [itemBytes_nil] at htotal
    exact .inr ⟨0, Nat.le_refl _, hskip, rfl, by simpa using htotal, by simp; omega⟩
  | cons item rest ih =>
    obtain ⟨hbig, hbytes⟩ := hsmall item (by simp)
    rw [itemBytes_cons] at htotal
    rw [List.length_cons] at hskip
    have hrest : ∀ i ∈ rest, i.isBigkey = false ∧ i.nbytes ≤ most := fun i hi =>
      hsmall i (by simp [hi])
    rw [psplitScan]
    by_cases hat : skip = nxt
    · have hnot : ¬ full ≤ used + ilen := by omega
      simp only [hat, hnot, and_false, if_false, true_and, if_true, hbig, true_or, and_true]
      split_ifs with hhalf hfill hhalf'
      · exact .inr ⟨0, by simp, by simp, rfl, by simpa using hhalf, by simp; omega⟩
      · omega
      · exact .inr ⟨1, by simp, by omega, rfl, by simpa using hhalf', by simp; omega⟩
      · obtain ⟨n, hn, heq, hlow, hhigh⟩ := scan_passed_bytes nxt (nxt + 1)
          (used + ilen + item.nbytes) ilen full (by omega) hrest hfull
          (by omega) (by omega)
        refine .inr ⟨n + 1, by simpa using hn, by omega, ?_, ?_, ?_⟩
        · rw [heq, Nat.add_assoc, Nat.add_comm 1 n]
        · rw [List.take_succ_cons, itemBytes_cons]
          omega
        · rw [List.take_succ_cons, itemBytes_cons]
          omega
    · have hnot : ¬ skip ≤ nxt := by omega
      simp only [hat, hnot, false_and, if_false, hbig, true_or, and_true]
      split_ifs with hhalf
      · exact .inl ⟨0, by omega, rfl, by simpa using hhalf, by simp; omega⟩
      · rcases ih (nxt + 1) (used + item.nbytes) (by omega) (by omega) hrest
          (by omega) (by omega) with ⟨n, hn, heq, hlow, hhigh⟩ | ⟨n, hn, hle', heq, hlow, hhigh⟩
        · refine .inl ⟨n + 1, by omega, ?_, ?_, ?_⟩
          · rw [heq, Nat.add_assoc nxt 1 n, Nat.add_comm 1 n]
          · rw [List.take_succ_cons, itemBytes_cons]
            omega
          · rw [List.take_succ_cons, itemBytes_cons]
            omega
        · refine .inr ⟨n + 1, by simpa using hn, by omega, ?_, ?_, ?_⟩
          · rw [heq, Nat.add_assoc, Nat.add_comm 1 n]
          · rw [List.take_succ_cons, itemBytes_cons]
            omega
          · rw [List.take_succ_cons, itemBytes_cons]
            omega

end

theorem nbytes_ge (item : Item) : 8 ≤ item.nbytes := by
  cases item <;>
    simp only [Item.nbytes, nbinternal, nbleafdbt, nrinternal, nrleafdbt, lalign] <;> omega

theorem length_le_itemBytes (items : List Item) : 8 * items.length ≤ itemBytes items := by
  induction items with
  | nil => simp
  | cons item items ih =>
    have := nbytes_ge item
    rw [itemBytes_cons, List.length_cons]
    omega

@[simp] theorem sum_slotBytes (items : List Item) :
    ((items.map some).map slotBytes).sum = itemBytes items := by
  rw [List.map_map]
  rfl

theorem none_not_mem_map : none ∉ items.map some := by simp

theorem none_not_mem_insertIdx {i : Nat} (hi : i ≤ items.length) :
    none ∉ (items.map some).insertIdx i (some item) := by
  rw [List.mem_insertIdx (by simpa using hi)]
  simp

/-- An item that takes at most a quarter of a page, with its entry in the index. -/
def Quarter (c : Config) (item : Item) : Prop :=
  item.isBigkey = false ∧ 4 * (item.nbytes + indxSize) ≤ c.psize - btdataoff

theorem splitFits_of_quarter (hpsize : c.psize ≤ indxMod) (hitems : ∀ i ∈ items, Quarter c i)
    (hitem : Quarter c item) (hskip : skip ≤ items.length) (hfits : Fits c (items.map some))
    (hfull : c.psize <
      btdataoff + indxSize * (items.length + 1) + itemBytes items + item.nbytes) :
    SplitFits c items skip item := by
  have hlenbytes := length_le_itemBytes items
  have hnb := nbytes_ge item
  have hquarter := hitem.2
  simp only [Fits, List.length_map, sum_slotBytes] at hfits
  simp only [btdataoff, indxSize, indxMod] at *
  have hlen : items.length + 2 < 65536 / 2 := by omega
  have hscan := scan_bytes items (c.psize - 20) ((c.psize - 20) / 2) skip item.nbytes
    ((c.psize - 20) / 4) 0 0 (Nat.zero_le _) (by omega)
    (fun i hi => ⟨(hitems i hi).1, by
      have := (hitems i hi).2
      simp only [btdataoff, indxSize] at this
      omega⟩) (by omega) (by omega) (by omega) (by omega)
  have hr : btPsplit c items skip item.nbytes = psplitAt items skip
      (psplitScan (c.psize - 20) ((c.psize - 20) / 2) skip item.nbytes items 0 0 0 0) := rfl
  rcases hscan with ⟨n, hn, heq, hlow, hhigh⟩ | ⟨n, hn, hle, heq, hlow, hhigh⟩
  · rw [heq, psplitAt_right hlen hskip rfl (by simpa using hn) (by simp only; omega)] at hr
    simp only [Nat.zero_add] at hr hn hlow hhigh
    have hhalves : halves c items skip item = ((items.take (n + 1)).map some,
        ((items.drop (n + 1)).map some).insertIdx (skip - (n + 1)) (some item)) := by
      simp [halves, hr, set_insertIdx]
    have htake : (items.take (n + 1)).length = n + 1 := by
      rw [List.length_take]
      omega
    have hleft := length_le_itemBytes (items.take (n + 1))
    have hsum := itemBytes_take_drop items (n + 1)
    have hi : skip - (n + 1) ≤ (items.drop (n + 1)).length := by
      rw [List.length_drop]
      omega
    refine ⟨?_, ?_, ?_, ?_, ?_, ?_⟩ <;> rw [hhalves]
    · intro hnil
      rw [List.map_eq_nil_iff.1 hnil] at htake
      simp at htake
    · intro hnil
      have := congrArg List.length hnil
      rw [List.length_insertIdx_of_le_length (by simpa using hi)] at this
      simp at this
    · exact none_not_mem_map
    · exact none_not_mem_insertIdx hi
    · simp only [Fits, List.length_map, sum_slotBytes, htake, btdataoff, indxSize]
      omega
    · refine fits_insert _ _ _ (by simpa using hi) ?_
      simp only [List.length_map, sum_slotBytes, List.length_drop, btdataoff, indxSize]
      omega
  · have hpos : 0 < n := by
      by_contra hzero
      obtain rfl : n = 0 := by omega
      simp only [List.take_zero, itemBytes_nil] at hlow
      omega
    rw [heq, psplitAt_left hlen rfl (by simpa using hle) (by simpa using hn) (by simpa using hpos)] at hr
    simp only [Nat.zero_add] at hr hle hlow hhigh
    have hhalves : halves c items skip item =
        (((items.take n).map some).insertIdx skip (some item), (items.drop n).map some) := by
      simp [halves, hr, set_insertIdx]
    have htake : (items.take n).length = n := by
      rw [List.length_take]
      omega
    have hleft := length_le_itemBytes (items.take n)
    have hsum := itemBytes_take_drop items n
    refine ⟨?_, ?_, ?_, ?_, ?_, ?_⟩ <;> rw [hhalves]
    · intro hnil
      have := congrArg List.length hnil
      rw [List.length_insertIdx_of_le_length (by rw [List.length_map, htake]; exact hle)] at this
      simp at this
    · intro hnil
      have hdrop : items.drop n = [] := List.map_eq_nil_iff.1 hnil
      rw [hdrop, itemBytes_nil] at hsum
      omega
    · exact none_not_mem_insertIdx (by omega)
    · exact none_not_mem_map
    · refine fits_insert _ _ _ (by rw [List.length_map, htake]; exact hle) ?_
      simp only [List.length_map, sum_slotBytes, htake, btdataoff, indxSize]
      omega
    · simp only [Fits, List.length_map, sum_slotBytes, List.length_drop, btdataoff, indxSize]
      omega

/-- An item without a chain for its key, and within `bt_ovflsize`. -/
def SmallItem (c : Config) : Item → Prop
  | .bi bi => bi.bigkey = false ∧ bi.key.length ≤ c.ovflsize
  | .bl bl => bl.bigkey = false ∧ bl.key.length + bl.data.length ≤ c.ovflsize
  | .ri _ => False
  | .rl _ => False

def Roomy (c : Config) : Prop :=
  4 * (c.ovflsize + nbleafdbt 0 0 + indxSize) ≤ c.psize - btdataoff

theorem SmallItem.nbytes_le (h : SmallItem c item) : item.nbytes ≤ c.ovflsize + nbleafdbt 0 0 := by
  cases item with
  | bi bi => exact Nat.le_trans (nbytes_bi bi) (Nat.add_le_add_right h.2 _)
  | bl bl => exact Nat.le_trans (nbytes_bl bl) (Nat.add_le_add_right h.2 _)
  | ri _ => exact h.elim
  | rl _ => exact h.elim

theorem SmallItem.quarter (hroomy : Roomy c) (h : SmallItem c item) : Quarter c item := by
  have hbytes := h.nbytes_le
  rw [Roomy] at hroomy
  refine ⟨?_, by omega⟩
  cases item with
  | bi bi => exact h.1
  | bl bl => exact h.1
  | ri _ => rfl
  | rl _ => rfl

def SmallSlots (c : Config) (linp : List (Option Item)) : Prop :=
  ∀ s ∈ linp, ∃ item, s = some item ∧ SmallItem c item

theorem SmallSlots.small (h : SmallSlots c (items.map some)) : ∀ i ∈ items, SmallItem c i := by
  intro i hi
  obtain ⟨item, heq, hsmall⟩ := h (some i) (by simpa using hi)
  rwa [Option.some.inj heq]

theorem parentItem_small {h : Page} {k : Nat} {type : PageType} {pg : Pgno}
    {L R : List (Option Item)} (htype : type = .bleaf ∨ type = .binternal) (hR : SmallSlots c R)
    (heq : parentItem c h k (halfPage type pInvalid L) (halfPage type pg R) = .ok item) :
    SmallItem c item := by
  have hslot : ∀ it, (halfPage type pg R).slot 0 = some it → SmallItem c it := by
    intro it hit
    cases R with
    | nil => simp [halfPage, Page.slot] at hit
    | cons s R =>
      obtain ⟨it', hit', hsmall⟩ := hR s (by simp)
      simp only [halfPage, Page.slot, List.getElem?_cons_zero] at hit
      rw [hit'] at hit
      rwa [← Option.some.inj hit]
  rcases htype with rfl | rfl
  · have hright : (halfPage .bleaf pg R).type = .bleaf := rfl
    simp only [parentItem, hright] at heq
    obtain ⟨bl, hbl, heq⟩ := bind_eq_ok.1 heq
    obtain ⟨tbl, -, heq⟩ := bind_eq_ok.1 heq
    obtain ⟨key, hkey, heq⟩ := bind_eq_ok.1 heq
    obtain rfl := Except.ok.inj heq
    have hsmall : SmallItem c (.bl bl) := hslot _ (by
      unfold Page.getBleaf at hbl
      split at hbl <;> simp_all)
    have hlen := (parentKey_length hkey).1
    have := hsmall.2
    exact ⟨hsmall.1, (by omega : key.length ≤ c.ovflsize)⟩
  · have hright : (halfPage .binternal pg R).type = .binternal := rfl
    simp only [parentItem, hright] at heq
    obtain ⟨bi, hbi, heq⟩ := bind_eq_ok.1 heq
    obtain rfl := Except.ok.inj heq
    exact hslot (.bi bi) (by
      unfold Page.getBinternal at hbi
      split at hbi <;> simp_all)

theorem pageFits_of_small {n : Node} {h : Page} {prev next : Pgno} (hs : Sound c)
    (hroomy : Roomy c) (hpg : h.Shows n prev next) (hitems : n.linp = items.map some)
    (hsmall : SmallSlots c n.linp) (hitem : SmallItem c item) (hfits : Fits c n.linp)
    (htype : n.type ≠ .overflow) (hskip : skip ≤ items.length)
    (hroom : h.room c.psize < item.nbytes + indxSize) :
    PageFits c h items skip item ∧ SmallSlots c (pageHalves c h items skip item).2 := by
  have hbytes := hitem.nbytes_le
  have hsound := hs.room
  rw [room_lt_iff _ hs hpg hitems hfits htype (by simp only [indxSize] at *; omega)] at hroom
  have hitems' := SmallSlots.small (hitems ▸ hsmall)
  have hsplit : SplitFits c items skip item := by
    refine splitFits_of_quarter hs.psize_le (fun i hi => (hitems' i hi).quarter hroomy)
      (hitem.quarter hroomy) hskip (hitems ▸ hfits) ?_
    rwa [hitems, List.length_map, sum_slotBytes] at hroom
  refine ⟨.inr hsplit, fun s hmem => ?_⟩
  rw [pageHalves] at hmem
  split_ifs at hmem
  · exact ⟨item, by simpa using hmem, hitem⟩
  · have hlen : items.length + 2 < indxMod / indxSize := by
      have hpsize := hs.psize_le
      have hcount := length_le_itemBytes items
      simp only [Fits, hitems, List.length_map, sum_slotBytes] at hfits
      simp only [indxMod, indxSize, btdataoff] at *
      omega
    have hdivides := (hsplit.divides hlen hskip).1
    have hall : s ∈ (items.map some).insertIdx skip (some item) := by
      rw [← hdivides]
      exact List.mem_append_right _ hmem
    rw [List.mem_insertIdx (by simpa using hskip)] at hall
    rcases hall with rfl | hall
    · exact ⟨item, rfl, hitem⟩
    · exact hsmall s (hitems ▸ hall)

theorem InternalNode.smallSlots {n : Node} (h : InternalNode c cs n)
    (hplain : ∀ ch ∈ cs, ch.preserve = false) : SmallSlots c n.linp := by
  intro s hs
  obtain ⟨bi, rfl, hbig, hlen⟩ := (h.slots s hs).small hplain
  exact ⟨_, rfl, hbig, hlen⟩

theorem splitsFit_of_small {D U : List (List Node)} {i : Nat} {stack : List Epgno}
    {type : PageType} {L R : List (Option Item)} (hs : Sound c) (hroomy : Roomy c)
    (hrep : Rep (plen c) t.pages t.free ⟨D ++ U, cs, fs⟩)
    (hint : ∀ up ∈ U, ∀ n ∈ up, InternalNode c cs n) (hplain : ∀ ch ∈ cs, ch.preserve = false)
    (hpath : Path Node.linp Node.pgno U i (path stack))
    (htype : type = .bleaf ∨ type = .binternal) (hR : SmallSlots c R) :
    SplitsFit c t.pages stack type L R := by
  induction U generalizing D i stack type L R with
  | nil =>
    obtain ⟨-, hnil⟩ := hpath
    obtain rfl : stack = [] := by simpa [path] using hnil
    trivial
  | cons up U ih =>
    obtain ⟨A, p, B, k, rest, rfl, hk, -, hstack, hrest⟩ := hpath
    obtain ⟨parent, rest, rfl, hparent, rfl⟩ := List.map_eq_cons_iff.1 hstack
    obtain ⟨hpgno, rfl⟩ : parent.pgno = p.pgno ∧ parent.index = k := Prod.mk.inj hparent
    intro pg h items item hget hitems hitem hroom
    obtain ⟨h', hget', hpg⟩ := hrep.getNode
    rw [hpgno] at hget
    obtain rfl : h = h' := Option.some.inj (hget.symm.trans hget')
    have hp := hint _ (List.mem_cons_self ..) p (by simp)
    have hlinp : p.linp = items.map some := hpg.linp.symm.trans hitems
    have hskip : parent.index + 1 ≤ items.length := by
      rw [hlinp, List.length_map] at hk
      exact hk
    obtain ⟨hpage, hright⟩ := pageFits_of_small hs hroomy hpg hlinp (hp.smallSlots hplain)
      (parentItem_small htype hR hitem) hp.fits (by rw [hp.type]; decide) hskip hroom
    refine ⟨hpage, ?_⟩
    exact ih (D := D ++ [A ++ p :: B]) (by simpa using hrep)
      (fun up hup => hint up (List.mem_cons_of_mem _ hup)) hrest (.inr rfl) hright

theorem Sorted.splitsWell {overwrite : Bool} (hs : Sound c) (hnodups : c.nodups = true)
    (hroomy : Roomy c) (h : Sorted c ord t cs fs leaves ups) (hdepth : ups.length ≤ stackSize)
    (hkey : key.length + novflsize ≤ c.ovflsize) : SplitsWell c t key data overwrite := by
  intro r pg items bl heq _ hget hitems hblkey hbig hdata hroom
  obtain ⟨r', A, x, B, u, v, heq', hloc, -⟩ :=
    btSearch_spec key hs.plen_pos hnodups h.tree.shape h.tree.rep hdepth
  obtain rfl : r = r' := Except.ok.inj (heq.symm.trans heq')
  obtain rfl := hloc.leaves_eq
  have hx := h.tree.shape.leaf x (by simp)
  obtain ⟨pg', hget', hpg⟩ := Rep.getNode (D := []) h.tree.rep
  rw [hloc.pgno] at hget
  obtain rfl : pg = pg' := Option.some.inj (hget.symm.trans hget')
  have hsmall : SmallSlots c x.linp := by
    intro s hmem
    obtain ⟨bl, rfl, hlen, -⟩ := hx.slots s hmem
    exact ⟨_, rfl, h.small x (by simp) bl hmem, hlen⟩
  have hitem : SmallItem c (.bl bl) := by
    refine ⟨hbig, ?_⟩
    rw [hblkey, hdata, dataOnPage]
    split_ifs with htoo
    · exact hkey
    · simpa [tooBig] using htoo
  -- the page without the record that is replaced
  have hsub : ((withoutRecord pg r.2.1.index r.2.2).linp).Sublist x.linp := by
    rw [withoutRecord, ← hpg.linp]
    split_ifs
    · exact List.eraseIdx_sublist ..
    · exact List.Sublist.refl _
  have hshows : (withoutRecord pg r.2.1.index r.2.2).Shows
      { x with linp := (withoutRecord pg r.2.1.index r.2.2).linp }
      (lastKey Node.pgno pInvalid A) (headKey Node.pgno pInvalid B) := by
    rw [withoutRecord]
    split_ifs
    · exact ⟨hpg.pgno, hpg.prevpg, hpg.nextpg, hpg.type, rfl⟩
    · exact ⟨hpg.pgno, hpg.prevpg, hpg.nextpg, hpg.type, rfl⟩
  have hfits : Fits c (withoutRecord pg r.2.1.index r.2.2).linp := by
    have hfull := hx.fits
    have hlen := hsub.length_le
    have hsum : ((withoutRecord pg r.2.1.index r.2.2).linp.map slotBytes).sum ≤
        (x.linp.map slotBytes).sum := (hsub.map slotBytes).sum_le_sum fun _ _ => Nat.zero_le _
    simp only [Fits, indxSize] at hfull ⊢
    omega
  have hskip : r.2.1.index ≤ items.length := by
    have hlen := congrArg List.length hitems
    have hlinp := congrArg List.length (hpg.linp.trans hloc.linp_eq)
    simp only [List.length_append] at hlinp
    rw [List.length_map, withoutRecord, hloc.index] at hlen
    rw [hloc.index]
    split_ifs at hlen with hexact
    · have hne := List.length_pos_of_ne_nil (hloc.hit hexact)
      rw [List.length_eraseIdx_of_lt (by omega)] at hlen
      omega
    · omega
  obtain ⟨hpage, hright⟩ := pageFits_of_small hs hroomy hshows hitems
    (fun s hmem => hsmall s (hsub.subset hmem)) hitem hfits (by rw [hx.type]; decide) hskip hroom
  exact ⟨hpage, splitsFit_of_small (D := [A ++ x :: B]) hs hroomy h.tree.rep
    h.tree.shape.internal h.plain hloc.path (.inl rfl) hright⟩

end Btree

end Bsdi.Db
