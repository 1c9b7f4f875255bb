import Bsdi.Db.Btree.SplitFrame

/-!
# A cursor on a page that is split

`bt_psplit` moves a cursor on the page with the record it is on. It compares the new index with
the number of items that went left, not with the number of slots on the left page, which is one
more when the new item is on the left page too.
-/

namespace Bsdi.Db

open Bsdi.Lib

namespace Btree

variable {c : Config} {t t₁ t₂ : Btree} {S fs : List Pgno} {pg : Pgno} {h : Page}
variable {items : List Item} {skip : Nat} {item : Item} {s : Halves}

def designated (t : Btree) (e : Epgno) : Option Item :=
  t.pages[e.pgno]?.bind fun h => h.linp[e.index]?.join

/-! ## The two pages -/

/-- The pages of a split leaf, with the open slot. A page at the end of its level may just get
a new page behind it; then the cursor stays. -/
structure Opened (c : Config) (t : Btree) (h : Page) (items : List Item) (skip ilen : Nat)
    (t₁ : Btree) (s : Halves) (lp rp : Page) : Prop where
  left : t₁.pages[s.left]? = some lp
  right : t₁.pages[s.right]? = some rp
  ne : s.left ≠ s.right
  root : h.pgno = pRoot → s.left ≠ pRoot ∧ s.right ≠ pRoot ∧
    ∃ p, t₁.pages[pRoot]? = some p ∧ p.type = h.type
  dead : rp.dead = none
  type : rp.type = h.type
  slots :
    (skip = items.length ∧ lp.linp = items.map some ∧ rp.linp = [none] ∧ s.target = s.right ∧
      s.skip = 0 ∧ t₁.cursor = t.cursor ∧ s.left = h.pgno) ∨
    (lp.linp = (btPsplit c items skip ilen).left ∧ rp.linp = (btPsplit c items skip ilen).right ∧
      s.target = (if (btPsplit c items skip ilen).onLeft then s.left else s.right) ∧
      s.skip = (btPsplit c items skip ilen).skip ∧
      t₁.cursor = psplitCursor t.cursor h.pgno s.left s.right skip (btPsplit c items skip ilen).nxt)

theorem relinkSide_get {f : Page → Page} {q n : Pgno} {p : Page}
    (hlink : relinkSide t q f = .ok t₁) (hget : t.pages[n]? = some p) :
    t₁.pages[n]? = some p ∨ t₁.pages[n]? = some (f p) := by
  rw [relinkSide] at hlink
  split_ifs at hlink
  · obtain rfl := Except.ok.inj hlink
    exact .inl hget
  · obtain ⟨p', hget', hset⟩ := bind_eq_ok.1 hlink
    obtain rfl := Except.ok.inj hset
    by_cases heq : q = n
    · subst heq
      obtain rfl : p' = p := Option.some.inj ((mpoolGet_eq_ok.1 hget').symm.trans hget)
      exact .inr (List.getElem?_set_self (List.getElem?_eq_some_iff.1 hget).1)
    · exact .inl ((List.getElem?_set_ne heq).trans hget)

theorem opened_btPage {ilen : Nat} (hfree : FreeApart S t fs) (hpg : pg ∈ S)
    (hget : t.pages[pg]? = some h) (hself : h.pgno = pg) (hroot : pg ≠ pRoot)
    (hitems : h.linp = items.map some) (hsplit : btPage c t pg skip ilen = .ok (t₁, s)) :
    ∃ lp rp, Opened c t h items skip ilen t₁ s lp rp := by
  rw [btPage] at hsplit
  obtain ⟨⟨npg, t'⟩, hnew, hsplit⟩ := bind_eq_ok.1 hsplit
  obtain ⟨fs', hfree', hspares, hcursor, -, hnot, -⟩ := hfree.btNew hnew
  obtain ⟨p, hget', hsplit⟩ := bind_eq_ok.1 hsplit
  dsimp only at hget' hsplit
  have hcore := core_eq (hspares.same pg (hfree.apart pg hpg).2 (by simp)) hget
    (mpoolGet_eq_ok.1 hget')
  have hpgno : p.pgno = pg := (congrArg Prod.fst hcore).trans hself
  have htype : p.type = h.type := congrArg (fun x => x.2.2.1) hcore
  have hlinp : p.linp = items.map some := (congrArg (fun x => x.2.2.2) hcore).trans hitems
  have hne : npg ≠ pg := fun heq => hnot (heq ▸ hpg)
  have hlt : npg < t'.pages.length := (hfree'.apart npg (by simp)).2
  have hlt' : pg < t'.pages.length := (hfree'.apart pg (by simp [hpg])).2
  split_ifs at hsplit with happend
  · obtain ⟨rfl, rfl⟩ := Prod.mk.inj (Except.ok.inj hsplit)
    refine ⟨{ p with nextpg := npg }, _,
      { left := List.getElem?_set_self (by simpa [setPage] using hlt')
        right := (List.getElem?_set_ne hne.symm).trans (List.getElem?_set_self hlt)
        ne := hne.symm
        root := fun hr => absurd (hself.symm.trans hr) hroot
        dead := rfl
        type := htype
        slots := .inl ⟨?_, hlinp, rfl, rfl, rfl, hcursor, hself.symm⟩ }⟩
    rw [happend.2, Page.nextindex, hlinp, List.length_map]
  · rw [items_of_map hlinp, ok_bind] at hsplit
    obtain ⟨t₂, hlink, hsplit⟩ := bind_eq_ok.1 hsplit
    obtain ⟨rfl, rfl⟩ := Prod.mk.inj (Except.ok.inj hsplit)
    have hnpg : ∃ p', t₂.pages[npg]? = some p' ∧ p'.dead = none ∧ p'.type = h.type ∧
        p'.linp = (btPsplit c items skip ilen).right := by
      rcases relinkSide_get hlink (List.getElem?_set_self hlt) with hget₂ | hget₂
      · exact ⟨_, hget₂, rfl, htype, rfl⟩
      · exact ⟨_, hget₂, rfl, htype, rfl⟩
    obtain ⟨p', hget₂, hdead, htype₂, hlinp₂⟩ := hnpg
    have hw : Writes [npg] t' t₂ := by
      refine Writes.trans ?_ (writes_relinkSide ?_ hlink)
      · exact writes_setPage _ (by simp)
      · exact fun _ => rfl
    refine ⟨_, p',
      { left := List.getElem?_set_self (Nat.lt_of_lt_of_le hlt' hw.spares.len)
        right := (List.getElem?_set_ne hne.symm).trans hget₂
        ne := hne.symm
        root := fun hr => absurd (hself.symm.trans hr) hroot
        dead := hdead
        type := htype₂
        slots := .inr ⟨rfl, hlinp₂, rfl, rfl, ?_⟩ }⟩
    have heq : t₂.cursor = t.cursor := hw.cursor.trans hcursor
    show psplitCursor t₂.cursor p.pgno p.pgno npg skip _ = _
    rw [heq, hpgno, hself]

theorem opened_btRoot {ilen : Nat} (hfree : FreeApart S t fs) (hpg : pg ∈ S)
    (hget : t.pages[pg]? = some h) (hself : h.pgno = pg) (hroot : pg = pRoot)
    (hitems : h.linp = items.map some) (hsplit : btRoot c t pg skip ilen = .ok (t₁, s)) :
    ∃ lp rp, Opened c t h items skip ilen t₁ s lp rp := by
  rw [btRoot] at hsplit
  obtain ⟨⟨lnpg, t'⟩, hnew, hsplit⟩ := bind_eq_ok.1 hsplit
  obtain ⟨⟨rnpg, t₂⟩, hnew₂, hsplit⟩ := bind_eq_ok.1 hsplit
  obtain ⟨fs', hfree', hspares, hcursor, -, hnot, -⟩ := hfree.btNew hnew
  obtain ⟨fs₂, hfree₂, hspares₂, hcursor₂, -, hnot₂, -⟩ := hfree'.btNew hnew₂
  obtain ⟨p, hget', hsplit⟩ := bind_eq_ok.1 hsplit
  have hcore := core_eq ((hspares.trans hspares₂).same pg (hfree.apart pg hpg).2 (by simp)) hget
    (mpoolGet_eq_ok.1 hget')
  have hpgno : p.pgno = pg := (congrArg Prod.fst hcore).trans hself
  have htype : p.type = h.type := congrArg (fun x => x.2.2.1) hcore
  have hlinp : p.linp = items.map some := (congrArg (fun x => x.2.2.2) hcore).trans hitems
  rw [items_of_map hlinp, ok_bind] at hsplit
  obtain ⟨rfl, rfl⟩ := Prod.mk.inj (Except.ok.inj hsplit)
  have hlr : lnpg ≠ rnpg := fun heq => hnot₂ (by simp [heq])
  have hl : lnpg < t₂.pages.length := (hfree₂.apart lnpg (by simp)).2
  have hr : rnpg < t₂.pages.length := (hfree₂.apart rnpg (by simp)).2
  have hl' : lnpg ≠ pRoot := fun heq => hnot (by rwa [heq, ← hroot])
  have hr' : rnpg ≠ pRoot := fun heq => hnot₂ (List.mem_cons_of_mem _ (by rwa [heq, ← hroot]))
  refine ⟨_, _,
    { left := (List.getElem?_set_ne hlr.symm).trans (List.getElem?_set_self hl)
      right := List.getElem?_set_self (by simpa [setPage] using hr)
      ne := hlr
      root := fun _ => ⟨hl', hr', p, ?_, htype⟩
      dead := rfl
      type := htype
      slots := .inr ⟨rfl, rfl, rfl, rfl, ?_⟩ }⟩
  · refine (List.getElem?_set_ne hr').trans ((List.getElem?_set_ne hl').trans ?_)
    rw [← hroot]
    exact mpoolGet_eq_ok.1 hget'
  · have heq : t₂.cursor = t.cursor := hcursor₂.trans hcursor
    show psplitCursor t₂.cursor p.pgno lnpg rnpg skip _ = _
    rw [heq, hpgno, hself]

theorem opened_splitPage {ilen : Nat} (hfree : FreeApart S t fs) (hpg : pg ∈ S)
    (hget : t.pages[pg]? = some h) (hself : h.pgno = pg) (hitems : h.linp = items.map some)
    (hsplit : splitPage c t pg skip ilen = .ok (t₁, s)) :
    ∃ lp rp, Opened c t h items skip ilen t₁ s lp rp := by
  rw [splitPage] at hsplit
  split_ifs at hsplit with hroot
  · exact opened_btRoot hfree hpg hget hself hroot hitems hsplit
  · exact opened_btPage hfree hpg hget hself hroot hitems hsplit

/-! ## The new item -/

structure SplitInto (c : Config) (t : Btree) (h : Page) (items : List Item) (skip : Nat)
    (item : Item) (t₁ : Btree) (s : Halves) (lp rp : Page) : Prop where
  left : t₁.pages[s.left]? = some lp
  right : t₁.pages[s.right]? = some rp
  root : h.pgno = pRoot → s.left ≠ pRoot ∧ s.right ≠ pRoot ∧
    ∃ p, t₁.pages[pRoot]? = some p ∧ p.type = h.type
  dead : rp.dead = none
  type : rp.type = h.type
  slots :
    (skip = items.length ∧ lp.linp = items.map some ∧ t₁.cursor = t.cursor ∧ s.left = h.pgno) ∨
    (lp.linp = (halves c items skip item).1 ∧ rp.linp = (halves c items skip item).2 ∧
      (btPsplit c items skip item.nbytes).skip <
        (if (btPsplit c items skip item.nbytes).onLeft then
          (btPsplit c items skip item.nbytes).left
        else (btPsplit c items skip item.nbytes).right).length ∧
      t₁.cursor = psplitCursor t.cursor h.pgno s.left s.right skip
        (btPsplit c items skip item.nbytes).nxt)

theorem Opened.storeItem {lp rp : Page} (ho : Opened c t h items skip item.nbytes t₁ s lp rp)
    (hstore : storeItem c t₁ s.target s.skip item = .ok t₂) :
    ∃ lp' rp', SplitInto c t h items skip item t₂ s lp' rp' := by
  obtain ⟨p, hget, hlt, rfl⟩ := storeItem_ok hstore
  have hget := mpoolGet_eq_ok.1 hget
  have hltp : s.target < t₁.pages.length := (List.getElem?_eq_some_iff.1 hget).1
  have hroot : ∀ q p', q = s.left ∨ q = s.right → h.pgno = pRoot →
      s.left ≠ pRoot ∧ s.right ≠ pRoot ∧
        ∃ p, (t₁.setPage q p').pages[pRoot]? = some p ∧ p.type = h.type := by
    intro q p' hq hr
    obtain ⟨hl, hr, p, hp, htype⟩ := ho.root hr
    refine ⟨hl, hr, p, (List.getElem?_set_ne ?_).trans hp, htype⟩
    rcases hq with rfl | rfl
    · exact hl
    · exact hr
  rcases ho.slots with ⟨hlast, hlinp, hrinp, htarget, hskip, hcursor, hleft⟩ |
    ⟨hlinp, hrinp, htarget, hskip, hcursor⟩
  · rw [htarget] at hget hltp
    obtain rfl : rp = p := Option.some.inj (ho.right.symm.trans hget)
    rw [htarget]
    exact ⟨lp, _,
      { left := (List.getElem?_set_ne ho.ne.symm).trans ho.left
        right := List.getElem?_set_self hltp
        root := hroot _ _ (.inr rfl)
        dead := ho.dead
        type := ho.type
        slots := .inl ⟨hlast, hlinp, hcursor, hleft⟩ }⟩
  · rw [hskip] at hlt
    cases hon : (btPsplit c items skip item.nbytes).onLeft with
    | true =>
      rw [hon, if_pos rfl] at htarget
      rw [htarget] at hget hltp
      obtain rfl : lp = p := Option.some.inj (ho.left.symm.trans hget)
      rw [htarget]
      refine ⟨_, rp,
        { left := List.getElem?_set_self hltp
          right := (List.getElem?_set_ne ho.ne).trans ho.right
          root := hroot _ _ (.inl rfl)
          dead := ho.dead
          type := ho.type
          slots := .inr ⟨?_, ?_, ?_, hcursor⟩ }⟩
      · rw [halves, hon, if_pos rfl, hskip, hlinp]
      · rw [halves, hon, if_pos rfl, hrinp]
      · rw [hon, if_pos rfl, ← hlinp]
        exact hlt
    | false =>
      rw [hon, if_neg (by simp)] at htarget
      rw [htarget] at hget hltp
      obtain rfl : rp = p := Option.some.inj (ho.right.symm.trans hget)
      rw [htarget]
      refine ⟨lp, _,
        { left := (List.getElem?_set_ne ho.ne.symm).trans ho.left
          right := List.getElem?_set_self hltp
          root := hroot _ _ (.inr rfl)
          dead := ho.dead
          type := ho.type
          slots := .inr ⟨?_, ?_, ?_, hcursor⟩ }⟩
      · rw [halves, hon, if_neg (by simp), hlinp]
      · rw [halves, hon, if_neg (by simp), hskip, hrinp]
      · rw [hon, if_neg (by simp), ← hrinp]
        exact hlt

/-! ## The records of the two pages -/

theorem cut_of_stored (hlen : items.length + 2 < indxMod / indxSize)
    (hhalf : 0 < (c.psize - btdataoff) / 2) (hskip : skip ≤ items.length) (hne : items ≠ [])
    (hlt : (btPsplit c items skip item.nbytes).skip <
      (if (btPsplit c items skip item.nbytes).onLeft then (btPsplit c items skip item.nbytes).left
        else (btPsplit c items skip item.nbytes).right).length)
    {e : Item} (hhead : (halves c items skip item).2[0]? = some (some e)) :
    ∃ k, LeftCut c items skip item k ∧ k ≤ items.length ∧
      halves c items skip item = (((items.insertIdx skip item).take k).map some,
        ((items.insertIdx skip item).drop k).map some) ∧
      (btPsplit c items skip item.nbytes).nxt = if skip < k then k - 1 else k := by
  have hscan := scanned hhalf item hskip (by simp only [indxMod, indxSize] at *; omega)
  cases hscan with
  | all hpassed hover hnxt hoff =>
    exfalso
    have hpos : 0 < items.length := List.length_pos_iff.2 hne
    rw [halves, btPsplit, psplitAt, if_pos hoff] at hhead
    simp only [if_true, hnxt, List.drop_length, psplitRight, Nat.ne_of_lt hpos, if_false] at hhead
    cases hhead
  | cut hle hcut hr =>
    rename_i k
    have hpos : 0 < k := by
      by_contra hzero
      obtain rfl : k = 0 := by omega
      have hskip0 : skip = 0 := by
        cases hcut with
        | before _ hover => exact Nat.le_zero.1 hover.1
      subst hskip0
      rw [btPsplit, hr] at hlt
      simp [psplitAt, psplitLeft, indxMod, indxSize] at hlt
    have halone : ¬ (skip = 0 ∧ k = 1) := by
      rintro ⟨rfl, rfl⟩
      rw [halves, btPsplit, hr] at hhead
      cases items with
      | nil => exact hne rfl
      | cons a items => simp [psplitAt, psplitRight] at hhead
    obtain ⟨hs, hhalves⟩ := halves_of_scan hlen hskip hpos hle halone hr
    refine ⟨k, hcut, hle, hhalves, ?_⟩
    rw [hs]
    split_ifs <;> rfl

theorem entry_of_item (items : List Item) (skip : Nat) (item : Item) (i : Nat) :
    (items.insertIdx skip item)[if skip ≤ i then i + 1 else i]? = items[i]? ∧
      (skip ≤ i → (items.insertIdx skip item)[i + 2]? = items[i + 1]?) := by
  constructor
  · split_ifs with hle
    · rw [List.getElem?_insertIdx_of_gt (by omega), Nat.add_sub_cancel]
    · rw [List.getElem?_insertIdx_of_lt (by omega)]
  · intro hle
    rw [List.getElem?_insertIdx_of_gt (by omega)]
    rfl

theorem designated_congr {e : Epgno} (h : t₁.pages[e.pgno]?.map core = t.pages[e.pgno]?.map core) :
    designated t₁ e = designated t e := by
  rw [designated, designated]
  cases hp : t.pages[e.pgno]? with
  | none =>
    rw [hp, Option.map_none, Option.map_eq_none_iff] at h
    rw [h]
  | some p =>
    rw [hp, Option.map_some, Option.map_eq_some_iff] at h
    obtain ⟨p', hp', hcore⟩ := h
    have hlinp : p'.linp = p.linp := congrArg (fun x => x.2.2.2) hcore
    rw [hp', Option.bind_some, Option.bind_some, hlinp]

theorem designated_page {p : Page} {q i : Nat} {L : List Item} (hget : t.pages[q]? = some p)
    (hlinp : p.linp = L.map some) : designated t ⟨q, i⟩ = L[i]? := by
  rw [designated, hget, Option.bind_some, hlinp, List.getElem?_map]
  cases L[i]? <;> rfl

theorem SplitInto.cursor {lp rp : Page} {k i : Nat}
    (h₁ : SplitInto c t h items skip item t₁ s lp rp)
    (hlinp : lp.linp = ((items.insertIdx skip item).take k).map some)
    (hrinp : rp.linp = ((items.insertIdx skip item).drop k).map some)
    (hinit : t.cursor.init = true) (hpg : t.cursor.pg = ⟨h.pgno, i⟩)
    (hcursor : t₁.cursor = psplitCursor t.cursor h.pgno s.left s.right skip
      (if skip < k then k - 1 else k)) :
    (t₁.cursor.pg.pgno = s.left ∨ t₁.cursor.pg.pgno = s.right) ∧
    (designated t₁ t₁.cursor.pg = items[i]? ↔
      (skip < k → skip ≤ i → k ≤ i + 2 → items[i + 1]? = items[i]?)) := by
  obtain ⟨hentry, hnext⟩ := entry_of_item items skip item i
  have hcur : t₁.cursor.pg =
      if (if skip ≤ i then i + 1 else i) < (if skip < k then k - 1 else k) then
        ⟨s.left, if skip ≤ i then i + 1 else i⟩
      else ⟨s.right, (if skip ≤ i then i + 1 else i) - if skip < k then k - 1 else k⟩ := by
    rw [hcursor, psplitCursor, if_pos ⟨hinit, by rw [hpg]⟩, hpg]
    dsimp only
    split_ifs <;> rfl
  generalize he : (if skip ≤ i then i + 1 else i) = e at hentry hcur
  rw [hcur]
  by_cases hleft : e < if skip < k then k - 1 else k
  · -- the record is on the left page, and so is the cursor
    rw [if_pos hleft]
    refine ⟨.inl rfl, iff_of_true ?_ fun hon hle hk => ?_⟩
    · have hlt : e < k := by
        split_ifs at hleft <;> omega
      rw [designated_page h₁.left hlinp, List.getElem?_take_of_lt hlt, hentry]
    · rw [if_pos hon] at hleft
      rw [if_pos hle] at he
      omega
  · rw [if_neg hleft]
    refine ⟨.inr rfl, ?_⟩
    rw [designated_page h₁.right hrinp, List.getElem?_drop]
    by_cases hon : skip < k
    · -- one slot too far
      rw [if_pos hon] at hleft ⊢
      have hle : skip ≤ i := by
        by_contra hnot
        rw [if_neg hnot] at he
        omega
      rw [if_pos hle] at he
      have hat : k + (e - (k - 1)) = i + 2 := by omega
      rw [hat, hnext hle]
      exact ⟨fun heq _ _ _ => heq, fun hcond => hcond hon hle (by omega)⟩
    · rw [if_neg hon] at hleft ⊢
      have hat : k + (e - k) = e := by omega
      rw [hat, hentry]
      exact iff_of_true rfl fun hon' => absurd hon' hon

/-! ## The whole split -/

section

variable {A B : List Node} {x : Node} {ups : List (List Node)} {cs : List Chain} {size : Nat}

theorem path_nodup {i : Nat} {stack : List Epgno}
    (hpath : Path Node.linp Node.pgno ups i (path stack))
    (hnodup : (ups.flatten.map Node.pgno).Nodup) : (stack.map Epgno.pgno).Nodup := by
  induction ups generalizing i stack with
  | nil =>
    obtain ⟨-, hnil⟩ := hpath
    rw [path, List.map_eq_nil_iff] at hnil
    simp [hnil]
  | cons up ups ih =>
    obtain ⟨A, n, B, k, rest, rfl, -, -, hstack, hrest⟩ := hpath
    obtain ⟨e, rest, rfl, he, rfl⟩ := List.map_eq_cons_iff.1 hstack
    rw [List.flatten_cons, List.map_append, List.nodup_append] at hnodup
    rw [List.map_cons, List.nodup_cons]
    refine ⟨fun hmem => ?_, ih hrest hnodup.2.1⟩
    obtain ⟨e', he', heq⟩ := List.mem_map.1 hmem
    have hpgno : e.pgno = n.pgno := (Prod.mk.inj he).1
    refine hnodup.2.2 n.pgno (by simp) e'.pgno (path_mem hrest e' he') ?_
    rw [heq, hpgno]

theorem Rep.aside (hrep : Rep size t.pages t.free ⟨(A ++ x :: B) :: ups, cs, fs⟩)
    (hpath : Path Node.linp Node.pgno ups A.length (path t.stack)) :
    Aside [x.pgno] t.stack t fs := by
  have hnodup := hrep.nodup
  have hx : x.pgno ∈ ((A ++ x :: B) :: ups).flatten.map Node.pgno := by simp
  have hstack : ∀ e ∈ t.stack, e.pgno ∈ ups.flatten.map Node.pgno := path_mem hpath
  have hlevel : ∀ q ∈ t.stack.map Epgno.pgno ++ [x.pgno],
      q ∈ ((A ++ x :: B) :: ups).flatten.map Node.pgno := by
    intro q hq
    rcases List.mem_append.1 hq with hq | hq
    · obtain ⟨e, he, rfl⟩ := List.mem_map.1 hq
      rw [List.flatten_cons, List.map_append]
      exact List.mem_append_right _ (hstack e he)
    · rw [List.mem_singleton] at hq
      rw [hq]
      exact hx
  have hlevels : (((A ++ x :: B) :: ups).flatten.map Node.pgno).Nodup :=
    (List.nodup_append.1 hnodup).1
  rw [List.flatten_cons, List.map_append, List.nodup_append] at hlevels
  refine ⟨⟨hrep.free, ?_, fun hmem => hrep.nonzero ?_, fun q hq => ⟨fun hmem => ?_, ?_⟩⟩,
    ?_, ?_, ?_⟩
  · exact (List.nodup_append.1 (List.nodup_append.1 hnodup).2.1).2.1
  · simp only [View.pgnos, List.mem_append]
    exact .inr (.inr hmem)
  · exact (List.nodup_append.1 hnodup).2.2 q (hlevel q hq) q (List.mem_append_right _ hmem) rfl
  · refine hrep.lt_length q ?_
    rw [View.pgnos]
    exact List.mem_append_left _ (hlevel q hq)
  · exact path_nodup hpath hlevels.2.1
  · intro e he hmem
    rw [List.mem_singleton] at hmem
    exact hlevels.2.2 x.pgno (by simp) e.pgno (hstack e he) hmem.symm
  · intro e he p hget
    obtain ⟨n, hn, heq⟩ := List.mem_map.1 (hstack e he)
    obtain ⟨up, hup, hn⟩ := List.mem_flatten.1 hn
    obtain ⟨D, U, hups⟩ := List.append_of_mem (List.mem_cons_of_mem (A ++ x :: B) hup)
    obtain ⟨A', B', rfl⟩ := List.append_of_mem hn
    rw [hups] at hrep
    obtain ⟨p', hget', hshows⟩ := hrep.getNode
    rw [heq] at hget'
    obtain rfl : p' = p := Option.some.inj (hget'.symm.trans hget)
    rw [hshows.pgno, heq]

theorem head_of_getBleaf {p : Page} {bl : BLeaf} (hget : p.getBleaf 0 = .ok bl)
    (hdead : p.dead = none) : p.linp[0]? = some (some (.bl bl)) := by
  rw [Page.getBleaf, Page.slot, hdead] at hget
  cases hslot : p.linp[0]? with
  | none => simp [hslot] at hget
  | some slot =>
    rw [hslot] at hget
    dsimp only at hget
    split at hget
    · rw [Except.ok.inj hget]
    · cases hget

theorem reads_right {t₃ : Btree} {rp : Page} (hrecno : c.recno = false)
    (hpage : pg = pRoot → ∃ p, t₁.pages[pRoot]? = some p ∧ p.type = .bleaf)
    (hstack : pg ≠ pRoot → t₁.stack ≠ [])
    (hright : t₁.pages[s.right]? = some rp) (htype : rp.type = .bleaf) (hdead : rp.dead = none)
    (hfix : fixRoot c t₁ pg s.left s.right = .ok t₂)
    (hloop : btSplitLoop c t₂.stack t₂ s.left s.right = .ok t₃) :
    ∃ bl, rp.linp[0]? = some (some (.bl bl)) := by
  rw [fixRoot] at hfix
  split_ifs at hfix with hroot hrec
  · exact absurd hrecno (by simp [hrec])
  · obtain ⟨p, hget, hleaf⟩ := hpage hroot
    rw [hroot] at hfix
    obtain ⟨p', hget', hfix⟩ := bind_eq_ok.1 hfix
    obtain ⟨rp', hright', hfix⟩ := bind_eq_ok.1 hfix
    obtain rfl : p' = p := Option.some.inj ((mpoolGet_eq_ok.1 hget').symm.trans hget)
    obtain rfl : rp' = rp := Option.some.inj ((mpoolGet_eq_ok.1 hright').symm.trans hright)
    rw [hleaf] at hfix
    obtain ⟨bl, hbl, -⟩ := bind_eq_ok.1 hfix
    exact ⟨bl, head_of_getBleaf hbl hdead⟩
  · obtain rfl := Except.ok.inj hfix
    cases hst : t₁.stack with
    | nil => exact absurd hst (hstack hroot)
    | cons parent rest =>
      rw [hst, btSplitLoop] at hloop
      obtain ⟨p', -, hloop⟩ := bind_eq_ok.1 hloop
      obtain ⟨lp', -, hloop⟩ := bind_eq_ok.1 hloop
      obtain ⟨rp', hright', hloop⟩ := bind_eq_ok.1 hloop
      obtain ⟨item, hitem, -⟩ := bind_eq_ok.1 hloop
      obtain rfl : rp' = rp := Option.some.inj ((mpoolGet_eq_ok.1 hright').symm.trans hright)
      rw [parentItem, htype] at hitem
      obtain ⟨bl, hbl, -⟩ := bind_eq_ok.1 hitem
      exact ⟨bl, head_of_getBleaf hbl hdead⟩

theorem Aside.halves {new fs' : List Pgno} (h₁ : Aside [pg] t.stack t fs)
    (hframe : SplitFrame (t.stack.map Epgno.pgno ++ [pg]) pg new t t₁ s fs fs')
    (hw : Writes (pg :: new) t₁ t₂) : Aside [s.left, s.right] t.stack t₂ fs' := by
  have hside : ∀ q, q ∈ [s.left, s.right] → q ∈ pg :: new := by
    intro q hq
    simp only [List.mem_cons, List.not_mem_nil, or_false] at hq
    rcases hq with rfl | rfl
    · exact hframe.left
    · exact hframe.right
  have hstack : ∀ e ∈ t.stack, e.pgno ∉ pg :: new := by
    intro e he hmem
    rcases List.mem_cons.1 hmem with heq | hmem
    · exact h₁.apart e he (by simp [heq])
    · exact hframe.fresh _ hmem (List.mem_append_left _ (List.mem_map_of_mem he))
  have hfs : ∀ q ∈ fs', q ∉ pg :: new := by
    intro q hq hmem
    rcases List.mem_cons.1 hmem with rfl | hmem
    · exact (hframe.free.apart _ (by simp)).1 hq
    · exact (hframe.free.apart q (by simp [hmem])).1 hq
  refine ⟨(hframe.free.writes hw hfs).mono fun q hq => ?_, h₁.nodup, ?_, ?_⟩
  · rcases List.mem_append.1 hq with hq | hq
    · exact List.mem_append_right _ (List.mem_append_left _ hq)
    · rcases List.mem_cons.1 (hside q hq) with rfl | hnew
      · simp
      · exact List.mem_append_left _ hnew
  · exact fun e he hmem => hstack e he (hside _ hmem)
  · intro e he p hget
    have hlt := (h₁.free.apart e.pgno (List.mem_append_left _ (List.mem_map_of_mem he))).2
    have hsame := (hframe.spares.trans hw.spares).same e.pgno hlt (hstack e he)
    have hget₀ := List.getElem?_eq_getElem hlt
    exact (congrArg Prod.fst (core_eq hsame hget₀ hget)).trans (h₁.self e he _ hget₀)

/-- After the split of a leaf page, a cursor on record `i` of it designates the same pair, unless
the new item went to the left page before the record, and the record is the last one there or on
the right page: then the cursor is one record too far. -/
theorem btSplit_cursor {t' : Btree} {i : Nat} (hpsize : c.psize ≤ indxMod)
    (hmin : minpsize ≤ c.psize) (hrecno : c.recno = false)
    (hshape : Shape c cs (A ++ x :: B) ups)
    (hrep : Rep (plen c) t.pages t.free ⟨(A ++ x :: B) :: ups, cs, fs⟩)
    (hpath : Path Node.linp Node.pgno ups A.length (path t.stack))
    (hitems : x.linp = items.map some) (hskip : skip ≤ items.length)
    (hinit : t.cursor.init = true) (hcur : t.cursor.pg = ⟨x.pgno, i⟩) (hi : i < items.length)
    (hsplit : btSplit c t x.pgno item skip = .ok t') :
    designated t' t'.cursor.pg = designated t t.cursor.pg ↔
      ∀ k, LeftCut c items skip item k → skip < k → skip ≤ i → k ≤ i + 2 →
        items[i + 1]? = items[i]? := by
  have hleaf := hshape.leaf x (by simp)
  have haside := hrep.aside hpath
  obtain ⟨h, hget, hshows⟩ := Rep.getNode (D := []) hrep
  have hlinp : h.linp = items.map some := hshows.linp.trans hitems
  have hbefore : designated t t.cursor.pg = items[i]? := by
    rw [hcur]
    exact designated_page hget hlinp
  rw [btSplit] at hsplit
  obtain ⟨⟨t₁, s⟩, hpage, hsplit⟩ := bind_eq_ok.1 hsplit
  obtain ⟨t₂, hstore, hsplit⟩ := bind_eq_ok.1 hsplit
  obtain ⟨t₃, hfix, hloop⟩ := bind_eq_ok.1 hsplit
  obtain ⟨new, fs', hframe⟩ := haside.free.splitPage (by simp) hpage
  obtain ⟨lp₀, rp₀, hopened⟩ := opened_splitPage haside.free (by simp) hget hshows.pgno hlinp hpage
  obtain ⟨lp, rp, hinto⟩ := hopened.storeItem hstore
  have hw : Writes (x.pgno :: new) t₁ t₂ := writes_storeItem hframe.target hstore
  have hw' : Writes (x.pgno :: new) t₁ t₃ := hw.trans (writes_fixRoot (by simp) hfix)
  have hstack : t₂.stack = t.stack := hw.stack.trans hframe.stack
  have hstack' : t₃.stack = t.stack := hw'.stack.trans hframe.stack
  have haside' := haside.halves hframe hw'
  -- the root is rewritten, not its halves
  have hcursor : t₃.cursor = t₂.cursor := (writes_fixRoot (P := [x.pgno]) (by simp) hfix).cursor
  have hsame : ∀ q ∈ [s.left, s.right], t₃.pages[q]?.map core = t₂.pages[q]?.map core := by
    intro q hq
    by_cases hroot : x.pgno = pRoot
    · obtain ⟨hl, hr, -⟩ := hinto.root (hshows.pgno.trans hroot)
      have hlt : q < t₂.pages.length := by
        simp only [List.mem_cons, List.not_mem_nil, or_false] at hq
        rcases hq with rfl | rfl
        · exact (List.getElem?_eq_some_iff.1 hinto.left).1
        · exact (List.getElem?_eq_some_iff.1 hinto.right).1
      refine (writes_fixRoot (P := [x.pgno]) (by simp) hfix).spares.same q hlt ?_
      simp only [List.mem_cons, List.not_mem_nil, or_false] at hq ⊢
      rw [hroot]
      rcases hq with rfl | rfl
      · exact hl
      · exact hr
    · rw [fixRoot, if_neg hroot] at hfix
      rw [Except.ok.inj hfix]
  have hafter : t₂.cursor.pg.pgno ∈ [s.left, s.right] →
      designated t' t'.cursor.pg = designated t₂ t₂.cursor.pg := by
    intro hmem
    rw [hstack'] at hloop
    obtain ⟨hcursor', hsame'⟩ := haside'.btSplitLoop (hcursor ▸ hmem) hloop
    rw [hcursor', hcursor]
    exact designated_congr ((hsame' _ hmem).trans (hsame _ hmem))
  rw [hbefore]
  rcases hinto.slots with ⟨hlast, hlp, hcur₂, hleft⟩ | ⟨hlp, hrp, hlt, hcur₂⟩
  · have hpos : t₂.cursor.pg = ⟨s.left, i⟩ := by rw [hcur₂, hcur, hleft, hshows.pgno]
    rw [hafter (by simp [hpos]), hpos, designated_page hinto.left hlp]
    exact iff_of_true rfl fun k _ _ hle => by omega
  · have htype : h.type = .bleaf := hshows.type.trans hleaf.type
    have hup : x.pgno ≠ pRoot → t₂.stack ≠ [] := by
      intro hroot hnil
      rw [hstack] at hnil
      rw [hnil] at hpath
      cases ups with
      | nil =>
        have htower := hshape.tower.1
        simp only [kids] at htower
        obtain ⟨y, rest, hlevel, hy, hrest⟩ := List.map_eq_cons_iff.1 htower
        rw [List.map_eq_nil_iff.1 hrest] at hlevel
        obtain rfl : x = y := by
          have hmem : x ∈ A ++ x :: B := by simp
          rw [hlevel] at hmem
          simpa using hmem
        exact hroot (Option.some.inj hy)
      | cons up ups =>
        obtain ⟨A', n, B', k, rest, -, -, -, hcons, -⟩ := hpath
        cases hcons
    have hpageroot : x.pgno = pRoot → ∃ p, t₂.pages[pRoot]? = some p ∧ p.type = .bleaf := by
      intro hroot
      obtain ⟨-, -, p, hp, hptype⟩ := hinto.root (hshows.pgno.trans hroot)
      exact ⟨p, hp, hptype.trans htype⟩
    obtain ⟨bl, hhead⟩ := reads_right hrecno hpageroot hup hinto.right
      (hinto.type.trans htype) hinto.dead hfix hloop
    rw [hrp] at hhead
    have hfits := (fits_map items).1 (hitems ▸ hleaf.fits)
    have hbytes := length_le_itemBytes items
    obtain ⟨k, hcut, hle, hhalves, hnxt⟩ := cut_of_stored
      (by simp only [indxMod, indxSize, btdataoff] at *; omega)
      (by simp only [minpsize, btdataoff] at *; omega) hskip
      (List.ne_nil_of_length_pos (Nat.lt_of_le_of_lt (Nat.zero_le i) hi)) hlt hhead
    rw [hhalves] at hlp hrp
    rw [hnxt] at hcur₂
    obtain ⟨hmem, hiff⟩ := hinto.cursor hlp hrp hinit (by rw [hcur, hshows.pgno]) hcur₂
    rw [hafter (by simpa using hmem), hiff]
    constructor
    · intro hcond k' hcut'
      rw [hcut'.unique hcut]
      exact hcond
    · exact fun hall => hall k hcut

end

/-! ## A page of four pairs -/

def hundred (j : UInt8) : Item := .bl ⟨List.replicate 91 j, [], false, false⟩

def fourNode : Node := ⟨pRoot, .bleaf, [hundred 2, hundred 3, hundred 4, hundred 5].map some⟩

/-- A tree with that page and the cursor on record `i` of it. -/
def fourPairs (i : Nat) : Btree :=
  { newTree .bleaf with
    pages := [junkPage, { rootPage .bleaf with linp := fourNode.linp }]
    cursor := { noCursor with init := true, pg := ⟨pRoot, i⟩ } }

theorem fourPairs_shape : Shape smallConfig [] [fourNode] [] where
  tower := ⟨rfl, trivial⟩
  leaf n hn := by
    obtain rfl := List.mem_singleton.1 hn
    refine ⟨rfl, fun s hs => ?_, ?_⟩
    · simp only [fourNode, List.map_cons, List.map_nil, List.mem_cons, List.not_mem_nil,
        or_false] at hs
      rcases hs with rfl | rfl | rfl | rfl <;>
        exact ⟨_, rfl, by decide +kernel, by simp, by simp⟩
    · rw [fourNode, fits_map]
      decide +kernel
  internal := by simp
  refs := by
    rw [fourNode]
    decide +kernel

theorem fourPairs_rep (i : Nat) : Rep (plen smallConfig) (fourPairs i).pages (fourPairs i).free
    ⟨[[fourNode]], [], []⟩ where
  linked level hlevel := by
    obtain rfl := List.mem_singleton.1 hlevel
    exact ⟨⟨_, rfl, ⟨rfl, rfl, rfl, rfl, rfl⟩⟩, trivial⟩
  chains := by simp
  free := rfl
  nodup := by simp [View.pgnos]
  nonzero := by simp [View.pgnos, fourNode, pRoot, pInvalid]
  pos := by simp [fourPairs]
  max := by simp [fourPairs, u32Mod]

theorem fourPairs_cut :
    LeftCut smallConfig [hundred 2, hundred 3, hundred 4, hundred 5] 0 (hundred 1) 3 :=
  .behind (by decide +kernel) (by decide +kernel) (by decide +kernel)

theorem btSplit_cursor_first :
    ∃ t', btSplit smallConfig (fourPairs 0) pRoot (hundred 1) 0 = .ok t' ∧
    designated t' t'.cursor.pg = some (hundred 2) := by
  have hok : (btSplit smallConfig (fourPairs 0) pRoot (hundred 1) 0).toOption.isSome = true := by
    decide +kernel
  cases hsplit : btSplit smallConfig (fourPairs 0) pRoot (hundred 1) 0 with
  | error e => simp [hsplit, Except.toOption] at hok
  | ok t' =>
    refine ⟨t', rfl, ?_⟩
    refine (btSplit_cursor (A := []) (B := []) (t := fourPairs 0) (x := fourNode) (i := 0)
      (by decide) (by decide) rfl fourPairs_shape (fourPairs_rep 0) ⟨rfl, rfl⟩ rfl (by decide) rfl
      rfl (by decide) hsplit).2 fun k hcut _ _ hk => ?_
    have hthree := hcut.unique fourPairs_cut
    omega

/-- A cursor on the second record is on the third one after the split. -/
theorem btSplit_cursor_second :
    ¬ ∀ (c : Config) (t t' : Btree) (x : Node) (items : List Item) (item : Item) (skip i : Nat),
      Shape c [] [x] [] → Rep (plen c) t.pages t.free ⟨[[x]], [], []⟩ → t.stack = [] →
      x.linp = items.map some → skip ≤ items.length → t.cursor.init = true →
      t.cursor.acquire = false → t.cursor.pg = ⟨x.pgno, i⟩ → i < items.length →
      btSplit c t x.pgno item skip = .ok t' →
      designated t' t'.cursor.pg = designated t t.cursor.pg := by
  intro hclaim
  have hlater : (btSplit smallConfig (fourPairs 1) pRoot (hundred 1) 0).toOption.bind
      (fun t' => designated t' t'.cursor.pg) = some (hundred 4) := by
    decide +kernel
  cases hsplit : btSplit smallConfig (fourPairs 1) pRoot (hundred 1) 0 with
  | error e => simp [hsplit, Except.toOption] at hlater
  | ok t' =>
    have hsame := hclaim smallConfig (fourPairs 1) t' fourNode
      [hundred 2, hundred 3, hundred 4, hundred 5] (hundred 1) 0 1 fourPairs_shape
      (fourPairs_rep 1) rfl rfl (by decide) rfl rfl rfl (by decide) hsplit
    rw [hsplit] at hlater
    rw [show designated t' t'.cursor.pg = some (hundred 4) from hlater] at hsame
    exact absurd hsame (by decide +kernel)

end Btree

end Bsdi.Db
