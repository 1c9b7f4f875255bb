import Bsdi.Db.Btree.Divide
import Bsdi.Db.Btree.Locate

/-!
# Splits that reach the parents

The loop of `__bt_split` inserts the entry for a new page into the parent and splits the
parent in turn if it has no room. Whatever page it stops at, the levels above the new page
have grown by one node.
-/

namespace Bsdi.Db

open Bsdi.Lib

theorem lalign_le (n : Nat) : lalign n ≤ n + 3 := by
  simp only [lalign]
  omega

theorem nbytes_bi (bi : BInternal) : (Item.bi bi).nbytes ≤ bi.key.length + nbleafdbt 0 0 := by
  have : (Item.bi bi).nbytes = lalign (4 + 4 + 1 + bi.key.length) := rfl
  have := lalign_le (4 + 4 + 1 + bi.key.length)
  have : nbleafdbt 0 0 = 12 := rfl
  omega

theorem nbytes_bl (bl : BLeaf) :
    (Item.bl bl).nbytes ≤ bl.key.length + bl.data.length + nbleafdbt 0 0 := by
  have : (Item.bl bl).nbytes = lalign (4 + 4 + 1 + bl.key.length + bl.data.length) := rfl
  have := lalign_le (4 + 4 + 1 + bl.key.length + bl.data.length)
  have : nbleafdbt 0 0 = 12 := rfl
  omega

namespace Btree

variable {c : Config} {t : Btree} {cs : List Chain} {fs : List Pgno}
variable {D U : List (List Node)} {A B : List Node} {x : Node}

theorem length_le_slotBytes {linp : List (Option Item)} {items : List Item}
    (h : linp = items.map some) : linp.length ≤ (linp.map slotBytes).sum := by
  subst h
  induction items with
  | nil => simp
  | cons item items ih =>
    have hpos : 1 ≤ slotBytes (some item) := by
      cases item <;> simp [slotBytes, Item.nbytes, nbinternal, nbleafdbt, nrinternal, nrleafdbt, lalign]
      all_goals omega
    simp only [List.map_cons, List.length_cons, List.sum_cons] at ih ⊢
    omega

theorem room_lt_iff {h : Page} {n : Node} {prev next : Pgno} (nb : Nat) {items : List Item}
    (hs : Sound c) (hpg : h.Shows n prev next) (hitems : n.linp = items.map some)
    (hfits : Fits c n.linp) (htype : n.type ≠ .overflow)
    (hnb : btdataoff + indxSize + nb ≤ c.psize) :
    h.room c.psize < nb + indxSize ↔
      c.psize < btdataoff + indxSize * (n.linp.length + 1) + (n.linp.map slotBytes).sum + nb := by
  have hsum := lower_add_used hpg
  have hpsize := hs.psize_le
  have hlen := length_le_slotBytes hitems
  have hlower : h.lower = btdataoff + indxSize * n.linp.length := by rw [Page.lower, hpg.linp]
  rw [Page.room, if_neg (by rw [hpg.type]; exact htype), Page.upper]
  simp only [Fits, btdataoff, indxSize, indxMod, u32Mod] at *
  rcases Nat.lt_or_ge (c.psize - h.used) 65536 with hlt | hge
  · rw [Nat.mod_eq_of_lt hlt]
    omega
  · -- an empty page of the largest size
    have hused : h.used = 0 ∧ c.psize = 65536 := by omega
    rw [hused.1, hused.2]
    omega

theorem fits_insert (linp : List (Option Item)) (i : Nat) (item : Item) (hi : i ≤ linp.length)
    (h : btdataoff + indxSize * (linp.length + 1) + (linp.map slotBytes).sum + item.nbytes ≤ c.psize) :
    Fits c (linp.insertIdx i (some item)) := by
  have hsum : ((linp.insertIdx i (some item)).map slotBytes).sum =
      (linp.map slotBytes).sum + item.nbytes := by
    rw [((List.perm_insertIdx _ linp hi).map slotBytes).sum_nat, List.map_cons, List.sum_cons,
      Nat.add_comm]
    rfl
  rw [Fits, List.length_insertIdx_of_le_length hi, hsum]
  omega

def halfPage (type : PageType) (pgno : Pgno) (linp : List (Option Item)) : Page :=
  { pgno := pgno, prevpg := pInvalid, nextpg := pInvalid, type := type, preserve := false,
    linp := linp, dead := none, bytes := [] }

def appends (h : Page) (skip : Nat) : Bool :=
  h.pgno ≠ pRoot ∧ h.nextpg = pInvalid ∧ skip = h.nextindex

/-- The indices of the two pages after `item` was inserted by a split of page `h`. -/
def pageHalves (c : Config) (h : Page) (items : List Item) (skip : Nat) (item : Item) :
    List (Option Item) × List (Option Item) :=
  if appends h skip then (items.map some, [some item]) else halves c items skip item

/-- A split of page `h` divides it well. -/
def PageFits (c : Config) (h : Page) (items : List Item) (skip : Nat) (item : Item) : Prop :=
  appends h skip = true ∨ SplitFits c items skip item

/-- Every parent that has no room for the entry of a new page below divides well. `L` and
`R` are the indices of the page below and of the new one, whose number may be any. -/
def SplitsFit (c : Config) (ps : List Page) :
    List Epgno → PageType → List (Option Item) → List (Option Item) → Prop
  | [], _, _, _ => True
  | parent :: rest, type, L, R => ∀ pg h items item,
      ps[parent.pgno]? = some h → h.linp = items.map some →
      parentItem c h (parent.index + 1) (halfPage type pInvalid L) (halfPage type pg R) = .ok item →
      h.room c.psize < item.nbytes + indxSize →
      PageFits c h items (parent.index + 1) item ∧
        SplitsFit c ps rest .binternal (pageHalves c h items (parent.index + 1) item).1
          (pageHalves c h items (parent.index + 1) item).2

theorem SplitsFit.congr {ps ps' : List Page} {stack : List Epgno} {type : PageType}
    {L R : List (Option Item)} (h : SplitsFit c ps stack type L R)
    (hsame : ∀ e ∈ stack, ps'[e.pgno]? = ps[e.pgno]?) : SplitsFit c ps' stack type L R := by
  induction stack generalizing type L R with
  | nil => trivial
  | cons parent rest ih =>
    intro pg h' items item hget hitems hitem hroom
    rw [hsame parent (by simp)] at hget
    obtain ⟨hfits, hrest⟩ := h pg h' items item hget hitems hitem hroom
    exact ⟨hfits, ih hrest fun e he => hsame e (List.mem_cons_of_mem parent he)⟩

theorem storeHalf {l r : Node} (skip : Nat) (item : Item) (onLeft : Bool) {size : Nat}
    (hrep : Rep size t.pages t.free ⟨D ++ (A ++ l :: r :: B) :: U, cs, fs⟩)
    (hskip : skip < (if onLeft then l.linp else r.linp).length)
    (hl : Fits c (if onLeft then l.linp.set skip (some item) else l.linp))
    (hr : Fits c (if onLeft then r.linp else r.linp.set skip (some item))) :
    ∃ ps', storeItem c t (if onLeft then l.pgno else r.pgno) skip item =
        .ok { t with pages := ps' } ∧
      Rep size ps' t.free ⟨D ++ (A ++
        { l with linp := if onLeft then l.linp.set skip (some item) else l.linp } ::
        { r with linp := if onLeft then r.linp else r.linp.set skip (some item) } :: B) :: U, cs, fs⟩ ∧
      ps'.length = t.pages.length ∧ Agree (View.pgnos ⟨D ++ U, cs, fs⟩) t.pages ps' ∧
      ∀ p, p ≠ l.pgno → p ≠ r.pgno → ps'[p]? = t.pages[p]? := by
  obtain ⟨-, -, hlevel⟩ := hrep.nodup_level
  cases onLeft with
  | true =>
    obtain ⟨ps', heq, hrep', hlen, hsame⟩ := storeItem_spec skip item hrep hskip hl
    refine ⟨ps', heq, hrep', hlen, fun p hp => hsame p ?_, fun p hp _ => hsame p hp⟩
    rintro rfl
    exact hlevel _ (by simp) hp
  | false =>
    have hrep₁ : Rep size t.pages t.free ⟨D ++ ((A ++ [l]) ++ r :: B) :: U, cs, fs⟩ := by
      simpa using hrep
    obtain ⟨ps', heq, hrep', hlen, hsame⟩ := storeItem_spec skip item hrep₁ hskip hr
    refine ⟨ps', heq, by simpa using hrep', hlen, fun p hp => hsame p ?_, fun p _ hp => hsame p hp⟩
    rintro rfl
    exact hlevel _ (by simp) hp

theorem Fits.single (hs : Sound c) {item : Item}
    (hitem : item.nbytes ≤ c.ovflsize + nbleafdbt 0 0) : Fits c [some item] := by
  have := hs.room
  simp only [Fits, List.length_singleton, List.map_cons, List.map_nil, List.sum_cons, List.sum_nil,
    slotBytes, Option.elim, indxSize, btdataoff] at this ⊢
  omega

theorem Fits.length_lt (hs : Sound c) {linp : List (Option Item)} {items : List Item}
    (hitems : linp = items.map some) (h : Fits c linp) : items.length + 2 < indxMod / indxSize := by
  have hpsize := hs.psize_le
  have : linp.length = items.length := by simp [hitems]
  simp only [Fits, indxMod, indxSize, btdataoff] at h hpsize ⊢
  omega

theorem insertIdx_succ_split {α : Type*} {u v : List α} {d e : α} :
    (u ++ d :: v).insertIdx (u.length + 1) e = u ++ d :: e :: v := by
  rw [insertIdx_append_right _ _ (by omega)]
  simp

theorem PageFits.halves {h : Page} {items : List Item} {skip : Nat} {item : Item} (hs : Sound c)
    (h₁ : PageFits c h items skip item) (hne : items ≠ []) (hitems : h.linp = items.map some)
    (hfits : Fits c h.linp) (hskip : skip ≤ items.length)
    (hitem : item.nbytes ≤ c.ovflsize + nbleafdbt 0 0) :
    (pageHalves c h items skip item).1 ++ (pageHalves c h items skip item).2 =
        (items.map some).insertIdx skip (some item) ∧
      (pageHalves c h items skip item).1 ≠ [] ∧ (pageHalves c h items skip item).2 ≠ [] ∧
      Fits c (pageHalves c h items skip item).1 ∧ Fits c (pageHalves c h items skip item).2 := by
  rw [pageHalves]
  split_ifs with happend
  · have hlast : skip = items.length := by
      have := (decide_eq_true_iff.1 happend).2.2
      rwa [Page.nextindex, hitems, List.length_map] at this
    refine ⟨?_, by simpa using hne, by simp, hitems ▸ hfits, Fits.single hs hitem⟩
    have hlen : items.length = (items.map some).length := (List.length_map _).symm
    rw [hlast, hlen, List.insertIdx_length_self]
  · have hsplit := h₁.resolve_left happend
    exact ⟨(hsplit.divides (Fits.length_lt hs hitems hfits) hskip).1, hsplit.left_ne,
      hsplit.right_ne, hsplit.left_fits, hsplit.right_fits⟩

theorem splitPage_page {pg : Page} {items : List Item} {skip : Nat} {item : Item} (hs : Sound c)
    (hrep : Rep (plen c) t.pages t.free ⟨D ++ (A ++ x :: B) :: U, cs, fs⟩)
    (hroot : x.pgno ≠ pRoot) (hget : t.pages[x.pgno]? = some pg)
    (hitems : x.linp = items.map some) (hfits : Fits c x.linp) (hskip : skip ≤ items.length)
    (hpage : PageFits c pg items skip item) (hitem : item.nbytes ≤ c.ovflsize + nbleafdbt 0 0) :
    Ensures (· = .nospace) (splitPage c t x.pgno skip item.nbytes) fun r => ∃ fs' ps',
      fs' <:+ fs ∧ SplitOnly t r.1 ∧ r.2.left = x.pgno ∧
      storeItem c r.1 r.2.target r.2.skip item = .ok { r.1 with pages := ps' } ∧
      Rep (plen c) ps' r.1.free ⟨D ++ (A ++
        { x with linp := (pageHalves c pg items skip item).1 } ::
        { x with pgno := r.2.right, linp := (pageHalves c pg items skip item).2 } :: B) :: U, cs, fs'⟩ ∧
      Agree (U.flatten.map Node.pgno) t.pages ps' := by
  obtain ⟨pg', hget', hpg⟩ := hrep.getNode
  obtain rfl : pg = pg' := Option.some.inj (hget.symm.trans hget')
  rw [splitPage, if_neg hroot]
  refine (btPage_spec skip item.nbytes hs.maxpages hrep hitems).mono ?_
  rintro ⟨t₁, s⟩ ⟨L, R, fs', hsuffix, hsplit, honly, hupper, hrep₁⟩
  have happends : appends pg skip = true ↔ B = [] ∧ skip = items.length := by
    simp only [appends, hpg.pgno, hpg.nextpg, Page.nextindex, hpg.linp, hitems, List.length_map,
      headKey_eq_zero hrep, decide_eq_true_iff]
    tauto
  have hframe : ∀ ps', Agree (View.pgnos ⟨D ++ U, cs, fs'⟩) t₁.pages ps' →
      Agree (U.flatten.map Node.pgno) t.pages ps' := fun ps' hsame p hp => by
    rw [← hupper p hp]
    refine hsame p ?_
    simp only [View.pgnos, List.flatten_append, List.map_append, List.mem_append]
    tauto
  rcases hsplit.halves with ⟨hB, hlast, rfl, rfl, htarget, hzero⟩ | ⟨rfl, rfl, htarget, hskip', hnot⟩
  · have happ := happends.2 ⟨hB, hlast⟩
    obtain ⟨ps', heq, hrep', -, hsame, -⟩ := storeHalf 0 item false hrep₁
      (by simp) (by simpa using hfits) (by simpa using Fits.single hs hitem)
    refine ⟨fs', ps', hsuffix, honly, hsplit.left, ?_, ?_, hframe ps' hsame⟩
    · dsimp only at htarget hzero ⊢
      rw [htarget, hzero]
      exact heq
    · simpa [pageHalves, happ, hitems] using hrep'
  · have hnotapp : ¬ appends pg skip = true := fun h => hnot (happends.1 h)
    have hdiv := hpage.resolve_left hnotapp
    have hbound := (hdiv.divides (Fits.length_lt hs hitems hfits) hskip).2
    have hlf := hdiv.left_fits
    have hrf := hdiv.right_fits
    simp only [halves] at hlf hrf
    obtain ⟨ps', heq, hrep', -, hsame, -⟩ := storeHalf _ item
      (btPsplit c items skip item.nbytes).onLeft hrep₁ hbound
      (by split_ifs at hlf ⊢ <;> exact hlf) (by split_ifs at hrf ⊢ <;> exact hrf)
    refine ⟨fs', ps', hsuffix, honly, hsplit.left, ?_, ?_, hframe ps' hsame⟩
    · dsimp only at htarget hskip' ⊢
      have hl := hsplit.left
      dsimp only at hl
      rw [htarget, hskip', hl]
      exact heq
    · rw [pageHalves, if_neg hnotapp, halves]
      split_ifs at hrep' ⊢ <;> exact hrep'

theorem splitPage_root {pg : Page} {items : List Item} {skip : Nat} {item : Item} (hs : Sound c)
    (hrep : Rep (plen c) t.pages t.free ⟨D ++ [[x]], cs, fs⟩)
    (hroot : x.pgno = pRoot) (hget : t.pages[x.pgno]? = some pg)
    (hitems : x.linp = items.map some) (hfits : Fits c x.linp) (hskip : skip ≤ items.length)
    (hpage : PageFits c pg items skip item) :
    Ensures (· = .nospace) (splitPage c t x.pgno skip item.nbytes) fun r => ∃ fs' ps',
      fs' <:+ fs ∧ SplitOnly t r.1 ∧
      storeItem c r.1 r.2.target r.2.skip item = .ok { r.1 with pages := ps' } ∧
      Rep (plen c) ps' r.1.free ⟨D ++ [[
        { x with pgno := r.2.left, linp := (pageHalves c pg items skip item).1 },
        { x with pgno := r.2.right, linp := (pageHalves c pg items skip item).2 }]], cs, fs'⟩ ∧
      x.pgno ∉ View.pgnos ⟨D ++ [[
        { x with pgno := r.2.left, linp := (pageHalves c pg items skip item).1 },
        { x with pgno := r.2.right, linp := (pageHalves c pg items skip item).2 }]], cs, fs'⟩ ∧
      ps'[x.pgno]? = some pg := by
  obtain ⟨pg', hget', hpg⟩ := Rep.getNode (A := []) (B := []) hrep
  obtain rfl : pg = pg' := Option.some.inj (hget.symm.trans hget')
  rw [splitPage, if_pos hroot]
  refine (btRoot_spec skip item.nbytes hs.maxpages hrep hitems).mono ?_
  rintro ⟨t₁, s⟩ ⟨fs', hsuffix, honly, hsamex, htarget, hskip', hrep₁, hnotx⟩
  dsimp only at htarget hskip' hsamex hnotx hrep₁ ⊢
  have hnotapp : ¬ appends pg skip = true := by simp [appends, hpg.pgno, hroot]
  have hdiv := hpage.resolve_left hnotapp
  have hbound := (hdiv.divides (Fits.length_lt hs hitems hfits) hskip).2
  have hlf := hdiv.left_fits
  have hrf := hdiv.right_fits
  simp only [halves] at hlf hrf
  obtain ⟨ps', heq, hrep', -, -, hsame⟩ := storeHalf (A := []) (B := []) (U := []) _ item
    (btPsplit c items skip item.nbytes).onLeft hrep₁ hbound
    (by split_ifs at hlf ⊢ <;> exact hlf) (by split_ifs at hrf ⊢ <;> exact hrf)
  have hpgnos : View.pgnos ⟨D ++ [[{ x with pgno := s.left, linp := (pageHalves c pg items skip item).1 },
      { x with pgno := s.right, linp := (pageHalves c pg items skip item).2 }]], cs, fs'⟩ =
      View.pgnos ⟨D ++ [[{ x with pgno := s.left, linp := (btPsplit c items skip item.nbytes).left },
        { x with pgno := s.right, linp := (btPsplit c items skip item.nbytes).right }]], cs, fs'⟩ := by
    simp [View.pgnos]
  refine ⟨fs', ps', hsuffix, honly, ?_, ?_, hpgnos ▸ hnotx, ?_⟩
  · rw [htarget, hskip']
    exact heq
  · rw [pageHalves, if_neg hnotapp, halves]
    split_ifs at hrep' ⊢ <;> exact hrep'
  · rw [hsame, hsamex, hget]
    · rintro heq
      exact hnotx (by simp [View.pgnos, heq])
    · rintro heq
      exact hnotx (by simp [View.pgnos, heq])

end Btree

end Bsdi.Db
