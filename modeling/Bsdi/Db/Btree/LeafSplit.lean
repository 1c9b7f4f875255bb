import Bsdi.Db.Btree.Raise
import Mathlib.Data.List.Pairwise

/-!
# Splitting a leaf page

`__bt_split` of a leaf page keeps the shape of the tree. The levels above get one more
fence, which is made from the first key of the right half.
-/

namespace Bsdi.Db

open Bsdi.Lib

namespace Btree

variable {c : Config} {t : Btree} {cs cs' : List Chain} {fs : List Pgno}
variable {D U ups : List (List Node)} {A B leaves : List Node} {x l r : Node}

theorem data_ne_key {n n' : Node} {bl bl' : BLeaf} (h : (leafRefs leaves).Nodup) (hn : n ∈ leaves)
    (hbl : some (.bl bl) ∈ n.linp) (hbig : bl.bigkey = true) (hn' : n' ∈ leaves)
    (hbl' : some (.bl bl') ∈ n'.linp) (hbig' : bl'.bigdata = true) :
    ofLe32 bl'.data ≠ ofLe32 bl.key := by
  have hflat : leafRefs leaves = (leaves.flatMap Node.linp).flatMap slotRefs := by
    rw [leafRefs, List.flatMap_assoc]
  rw [hflat, List.nodup_flatMap] at h
  obtain ⟨hown, hapart⟩ := h
  have hmem : some (.bl bl) ∈ leaves.flatMap Node.linp := List.mem_flatMap.2 ⟨n, hn, hbl⟩
  have hmem' : some (.bl bl') ∈ leaves.flatMap Node.linp := List.mem_flatMap.2 ⟨n', hn', hbl'⟩
  intro heq
  by_cases hsame : bl' = bl
  · subst hsame
    have := hown _ hmem
    simp [slotRefs, hbig, hbig', heq] at this
  · have : Std.Symm (Function.onFun List.Disjoint slotRefs) := ⟨fun _ _ h _ ha hb => h hb ha⟩
    have hdisjoint := hapart.forall hmem' hmem (by simpa using hsame)
    exact hdisjoint (a := ofLe32 bl'.data) (by simp [slotRefs, hbig'])
      (by simp [slotRefs, hbig, heq])

/-- The chains once the separator made from `bl` is on an internal page. -/
def markFirst (cs : List Chain) (bl : BLeaf) : List Chain :=
  if bl.bigkey then preserveChain cs (ofLe32 bl.key) else cs

@[simp] theorem slotKey_markFirst (bl : BLeaf) : slotKey (markFirst cs bl) = slotKey cs := by
  rw [markFirst]
  split <;> simp

@[simp] theorem pgnos_markFirst (bl : BLeaf) :
    (markFirst cs bl).flatMap Chain.pgnos = cs.flatMap Chain.pgnos := by
  rw [markFirst]
  split <;> simp

theorem InternalSlot.mark {s : Option Item} (h : InternalSlot c cs s) (bl : BLeaf) :
    InternalSlot c (markFirst cs bl) s := by
  obtain ⟨bi, rfl, hlen, hbig⟩ := h
  rw [markFirst]
  split
  · exact ⟨bi, rfl, hlen, fun hb => hasRef_preserveChain (hbig hb) (by simp +contextual)⟩
  · exact ⟨bi, rfl, hlen, hbig⟩

theorem LeafNode.mark {n m : Node} {bl : BLeaf} (h : LeafNode c cs n)
    (hrefs : (leafRefs leaves).Nodup) (hn : n ∈ leaves) (hm : m ∈ leaves)
    (hbl : some (.bl bl) ∈ m.linp) : LeafNode c (markFirst cs bl) n := by
  refine { h with slots := fun s hs => ?_ }
  obtain ⟨bl', rfl, hlen, hbig, hdata⟩ := h.slots s hs
  rw [markFirst]
  split
  · rename_i hb
    refine ⟨bl', rfl, hlen, fun hk => hasRef_preserveChain (hbig hk) (by simp), fun hd => ?_⟩
    refine hasRef_preserveChain (hdata hd) ?_
    simp [data_ne_key hrefs hm hbl hb hn hs hd]
  · exact ⟨bl', rfl, hlen, hbig, hdata⟩

def finLeaf (bl : BLeaf) (t : Btree) : Except Fault Btree :=
  if bl.bigkey then btPreserve t (ofLe32 bl.key) else .ok t

theorem finLeaf_spec {levels : List (List Node)} {bl : BLeaf}
    (hbig : bl.bigkey = true → HasRef cs (fun _ => True) bl.key)
    (hrep : Rep (plen c) t.pages t.free ⟨levels, cs, fs⟩) :
    ∃ ps', finLeaf bl t = .ok { t with pages := ps' } ∧
      Rep (plen c) ps' t.free ⟨levels, markFirst cs bl, fs⟩ ∧
      ps'.length = t.pages.length ∧ ∀ q, q ∉ cs.flatMap Chain.pgnos → ps'[q]? = t.pages[q]? := by
  cases hb : bl.bigkey with
  | false =>
    refine ⟨t.pages, by simp [finLeaf, hb], by simpa [markFirst, hb] using hrep, rfl, fun _ _ => rfl⟩
  | true =>
    obtain ⟨ps', heq, hrep', hlen, hsame⟩ := btPreserve_spec hrep (hbig hb)
    exact ⟨ps', by simpa [finLeaf, hb] using heq, by simpa [markFirst, hb] using hrep', hlen, hsame⟩

theorem parentKey_length {first : Bool} {k : Nat} {tbl bl : BLeaf} {key : Dbt}
    (h : parentKey c first k tbl bl = .ok key) :
    key.length ≤ bl.key.length ∧ (bl.bigkey = true → key = bl.key) := by
  unfold parentKey at h
  split at h
  · obtain rfl := Except.ok.inj h
    exact ⟨Nat.le_refl _, fun _ => rfl⟩
  · split_ifs at h with hsmall _ _
    · obtain rfl := Except.ok.inj h
      exact ⟨by simpa using Nat.min_le_right _ _, fun hb => by simp [hb] at hsmall⟩
    · obtain rfl := Except.ok.inj h
      exact ⟨Nat.le_refl _, fun _ => rfl⟩
    · obtain rfl := Except.ok.inj h
      exact ⟨Nat.le_refl _, fun _ => rfl⟩

theorem entry_leaf {bl : BLeaf} {key : Dbt} (pg : Pgno) (hlen : key.length ≤ c.ovflsize)
    (hwhole : bl.bigkey = true → key = bl.key)
    (hbig : bl.bigkey = true → HasRef cs (fun _ => True) bl.key) :
    Entry c cs (markFirst cs bl) (.bi ⟨key, pg, bl.bigkey⟩) (finLeaf bl) where
  slot := by
    refine ⟨_, rfl, hlen, fun hb => ?_⟩
    dsimp only at hb ⊢
    rw [hwhole hb, markFirst, if_pos hb]
    exact hasRef_preserveChain (hbig hb) (by simp)
  keys := slotKey_markFirst bl
  pgnos := pgnos_markFirst bl
  internal _ hs := hs.mark bl
  run _ _ _ hrep := finLeaf_spec hbig hrep

theorem carries_leaf {tbl bl : BLeaf} {key : Dbt} {v w : List (Option Item)} {parent : Epgno}
    {pg : Page} (hrep : Rep (plen c) t.pages t.free ⟨D ++ (A ++ l :: r :: B) :: U, cs, fs⟩)
    (hr : r.type = .bleaf) (hlast : l.linp = v ++ [some (.bl tbl)])
    (hfirst : r.linp = some (.bl bl) :: w) (hget : t.pages[parent.pgno]? = some pg)
    (hkey : parentKey c (pg.prevpg = pInvalid) (parent.index + 1) tbl bl = .ok key) :
    Carries c t.pages parent l r (.bi ⟨key, r.pgno, bl.bigkey⟩) (finLeaf bl) where
  eq h lp rp hh hlp hrp := by
    obtain rfl : h = pg := Option.some.inj (hh.symm.trans hget)
    obtain ⟨lp', hlp', hlpg⟩ := hrep.getNode
    obtain rfl : lp = lp' := Option.some.inj (hlp.symm.trans hlp')
    obtain ⟨rp', hrp', hpg⟩ := Rep.getNode (A := A ++ [l]) (x := r) (B := B) (by simpa using hrep)
    obtain rfl : rp = rp' := Option.some.inj (hrp.symm.trans hrp')
    have htype : rp.type = .bleaf := hpg.type.trans hr
    have hslot : rp.getBleaf 0 = .ok bl := by
      simp [Page.getBleaf, slot_zero (hpg.linp.trans hfirst)]
    have htbl : lp.getBleaf (lp.nextindex - 1) = .ok tbl := by
      simp [Page.getBleaf, Page.slot, Page.nextindex, hlpg.linp, hlast]
    refine ⟨by simp [parentItem, htype, hslot, htbl, hkey, hpg.pgno], ?_⟩
    intro t pg left skip
    simp only [insertParent, htype, hslot, ok_bind]
    rfl
  child := rfl

/-- Key `s` is the fence that a split makes from the last record of the left half and the
first one of the right half. The new root takes the bytes on the page as they are. -/
def Separator (c : Config) (cs : List Chain) (ups : List (List Node)) (tbl bl : BLeaf) (s : Dbt) :
    Prop :=
  (ups = [] ∧ s = bl.key) ∨
    ∃ first k key, parentKey c first k tbl bl = .ok key ∧ s = full cs bl.bigkey key

/-- The prefix function has an answer for the records on both sides of the split. -/
def Separable (c : Config) (L R : List (Option Item)) : Prop :=
  ∀ v tbl bl w, L = v ++ [some (.bl tbl)] → R = some (.bl bl) :: w →
    ∀ pfx ∈ c.pfx, pfx tbl.key bl.key ≠ 0

theorem Separable.parentKey {L R v w : List (Option Item)} {tbl bl : BLeaf} (h : Separable c L R)
    (hL : L = v ++ [some (.bl tbl)]) (hR : R = some (.bl bl) :: w) (first : Bool) (k : Nat) :
    ∃ key, parentKey c first k tbl bl = .ok key := by
  unfold Btree.parentKey
  split
  · exact ⟨_, rfl⟩
  · rename_i pfx hpfx
    have := h v tbl bl w hL hR pfx hpfx
    split_ifs
    · exact ⟨_, rfl⟩
    · exact ⟨_, rfl⟩
    · exact ⟨_, rfl⟩

section

variable {u v L R : List (Option Item)} {bl bl₂ : BLeaf} {q₁ q₂ : Pgno} {ups' : List (List Node)}

theorem leafRefs_split (happ : L ++ R = u ++ some (.bl bl) :: v) :
    leafRefs (A ++ { x with pgno := q₁, linp := L } :: { x with pgno := q₂, linp := R } :: B) =
      leafRefs (A ++ { x with linp := u ++ some (.bl bl) :: v } :: B) := by
  simp only [leafRefs, List.flatMap_append, List.flatMap_cons, ← happ, List.append_assoc]

theorem Shape.split (hshape : Shape c cs (A ++ x :: B) ups) (hlinp : x.linp = u ++ v)
    (hnew : LeafSlot c cs (some (.bl bl)))
    (hrefs : (leafRefs (A ++ { x with linp := u ++ some (.bl bl) :: v } :: B)).Nodup)
    (happ : L ++ R = u ++ some (.bl bl) :: v) (hL : Fits c L) (hR : Fits c R)
    (hmem : some (.bl bl₂) ∈ R)
    (htower : Tower Node.linp slotChild Node.pgno pRoot
      ((A ++ { x with pgno := q₁, linp := L } :: { x with pgno := q₂, linp := R } :: B) :: ups'))
    (hint : ∀ up ∈ ups', ∀ n ∈ up, InternalNode c (markFirst cs bl₂) n) :
    Shape c (markFirst cs bl₂)
      (A ++ { x with pgno := q₁, linp := L } :: { x with pgno := q₂, linp := R } :: B) ups' := by
  rw [← leafRefs_split happ] at hrefs
  have hx := hshape.leaf x (by simp)
  have hslot : ∀ s ∈ L ++ R, LeafSlot c cs s := by
    intro s hs
    have hs' : s = some (.bl bl) ∨ s ∈ x.linp := by
      simp only [happ, hlinp, List.mem_append, List.mem_cons] at hs ⊢
      tauto
    rcases hs' with rfl | hs'
    · exact hnew
    · exact hx.slots s hs'
  have hleaf : ∀ n ∈ A ++ { x with pgno := q₁, linp := L } :: { x with pgno := q₂, linp := R } :: B,
      LeafNode c cs n := by
    intro n hn
    simp only [List.mem_append, List.mem_cons] at hn
    rcases hn with hn | rfl | rfl | hn
    · exact hshape.leaf n (by simp [hn])
    · exact ⟨hx.type, fun s hs => hslot s (List.mem_append_left _ hs), hL⟩
    · exact ⟨hx.type, fun s hs => hslot s (List.mem_append_right _ hs), hR⟩
    · exact hshape.leaf n (by simp [hn])
  exact
    { tower := htower
      leaf := fun n hn => (hleaf n hn).mark hrefs hn
        (m := { x with pgno := q₂, linp := R }) (by simp) hmem
      internal := hint
      refs := hrefs }

/-- The outcome of a split of leaf page `x` into halves with indices `L` and `R`. -/
def Splits (c : Config) (t : Btree) (cs : List Chain) (fs : List Pgno) (A : List Node) (x : Node)
    (B : List Node) (ups : List (List Node)) (L R : List (Option Item)) (t' : Btree) : Prop :=
  ∃ q₁ q₂ ups' fs' v w tbl bl s, L = v ++ [some (.bl tbl)] ∧ R = some (.bl bl) :: w ∧
    fs' <:+ fs ∧ Separator c cs ups tbl bl s ∧
    InsertedAfter A.length (some s) (leafFences cs ups) (leafFences cs ups') ∧
    (∀ le : Option Dbt → Option Dbt → Prop, (∀ a, le none a) → (∀ a, le a a) →
      Lowest Node.linp (slotKey cs) le ups → Lowest Node.linp (slotKey cs) le ups') ∧
    Shape c (markFirst cs bl)
      (A ++ { x with pgno := q₁, linp := L } :: { x with pgno := q₂, linp := R } :: B) ups' ∧
    Rep (plen c) t'.pages t'.free
      ⟨(A ++ { x with pgno := q₁, linp := L } :: { x with pgno := q₂, linp := R } :: B) :: ups',
        markFirst cs bl, fs'⟩ ∧
    SplitOnly t { t' with stack := t.stack }

theorem exists_sides (hshape : Shape c cs (A ++ x :: B) ups) (hlinp : x.linp = u ++ v)
    (hnew : LeafSlot c cs (some (.bl bl))) (happ : L ++ R = u ++ some (.bl bl) :: v) (hL : L ≠ [])
    (hR : R ≠ []) : ∃ v₁ w tbl bl₂, L = v₁ ++ [some (.bl tbl)] ∧ R = some (.bl bl₂) :: w ∧
      LeafSlot c cs (some (.bl bl₂)) := by
  have hslot : ∀ s ∈ L ++ R, LeafSlot c cs s := by
    intro s hs
    have hs' : s = some (.bl bl) ∨ s ∈ x.linp := by
      simp only [happ, hlinp, List.mem_append, List.mem_cons] at hs ⊢
      tauto
    rcases hs' with rfl | hs'
    · exact hnew
    · exact (hshape.leaf x (by simp)).slots s hs'
  obtain ⟨v₁, last, rfl⟩ := (List.eq_nil_or_concat L).resolve_left hL
  obtain ⟨first, w, rfl⟩ := List.exists_cons_of_ne_nil hR
  obtain ⟨tbl, rfl, -⟩ := hslot last (by simp)
  obtain ⟨bl₂, rfl, -⟩ := hslot first (by simp)
  exact ⟨v₁, w, tbl, bl₂, by simp, rfl, hslot _ (by simp)⟩

theorem LeafSlot.nbytes_le (h : LeafSlot c cs (some (.bl bl))) :
    (Item.bl bl).nbytes ≤ c.ovflsize + nbleafdbt 0 0 := by
  obtain ⟨bl', heq, hlen, -⟩ := h
  obtain rfl : bl = bl' := by simpa using heq
  exact Nat.le_trans (nbytes_bl bl) (Nat.add_le_add_right hlen _)

theorem LeafSlot.key (h : LeafSlot c cs (some (.bl bl))) :
    bl.key.length ≤ c.ovflsize ∧ (bl.bigkey = true → HasRef cs (fun _ => True) bl.key) := by
  obtain ⟨bl', heq, hlen, hbig, -⟩ := h
  obtain rfl : bl = bl' := by simpa using heq
  exact ⟨by omega, hbig⟩

variable {pg : Page} {items : List Item}

theorem btSplit_page (hs : Sound c) (hshape : Shape c cs (A ++ x :: B) ups)
    (hrep : Rep (plen c) t.pages t.free ⟨(A ++ x :: B) :: ups, cs, fs⟩)
    (hpath : Path Node.linp Node.pgno ups A.length (path t.stack)) (hups : ups ≠ [])
    (hxne : x.linp ≠ []) (hget : t.pages[x.pgno]? = some pg) (hlinp : x.linp = u ++ v)
    (hitems : x.linp = items.map some) (hnew : LeafSlot c cs (some (.bl bl)))
    (hrefs : (leafRefs (A ++ { x with linp := u ++ some (.bl bl) :: v } :: B)).Nodup)
    (hpage : PageFits c pg items u.length (.bl bl))
    (hfit : SplitsFit c t.pages t.stack .bleaf (pageHalves c pg items u.length (.bl bl)).1
      (pageHalves c pg items u.length (.bl bl)).2)
    (hpfx : Separable c (pageHalves c pg items u.length (.bl bl)).1
      (pageHalves c pg items u.length (.bl bl)).2) :
    Ensures (· = .nospace) (btSplit c t x.pgno (.bl bl) u.length)
      (Splits c t cs fs A x B ups (pageHalves c pg items u.length (.bl bl)).1
        (pageHalves c pg items u.length (.bl bl)).2) := by
  have hx := hshape.leaf x (by simp)
  have hroot := ne_root (D := []) hrep hshape.tower.2 hups
  obtain ⟨pg', hget', hpg⟩ := Rep.getNode (D := []) hrep
  obtain rfl : pg = pg' := Option.some.inj (hget.symm.trans hget')
  have hskip : u.length ≤ items.length := by
    have := congrArg List.length (hitems.symm.trans hlinp)
    simp only [List.length_map, List.length_append] at this
    omega
  have hne : items ≠ [] := by
    rintro rfl
    exact hxne hitems
  obtain ⟨happ, hLne, hRne, hL, hR⟩ := hpage.halves hs hne (hpg.linp.trans hitems)
    (hpg.linp ▸ hx.fits) hskip hnew.nbytes_le
  rw [← hitems, hlinp, insertIdx_append_right _ _ (Nat.le_refl _), Nat.sub_self,
    List.insertIdx_zero] at happ
  obtain ⟨v₁, w, tbl, bl₂, hlast, hfirst, hslot⟩ := exists_sides hshape hlinp hnew happ hLne hRne
  generalize hH : pageHalves c pg items u.length (.bl bl) = H at *
  obtain ⟨parent, rest, hstack⟩ : ∃ e es, t.stack = e :: es := by
    obtain ⟨up, ups, rfl⟩ := List.exists_cons_of_ne_nil hups
    obtain ⟨_, _, _, _, _, -, -, -, hcons, -⟩ := hpath
    obtain ⟨e, es, h, -⟩ := List.map_eq_cons_iff.1 hcons
    exact ⟨e, es, h⟩
  rw [hstack] at hpath hfit
  rw [btSplit]
  refine (splitPage_page (D := []) hs hrep hroot hget hitems hx.fits hskip hpage
    hnew.nbytes_le).bind ?_
  rintro ⟨t₁, sp⟩ ⟨fs', ps₁, hsuffix, honly, hleftpg, hstore, hrep₁, hagree⟩
  dsimp only at honly hstore hrep₁ hleftpg ⊢
  rw [hH] at hrep₁
  have hstack₁ : ({ t₁ with pages := ps₁ } : Btree).stack = parent :: rest := by
    rw [SplitOnly] at honly
    rw [honly]
    exact hstack
  rw [hstore, ok_bind, fixRoot, if_neg hroot, ok_bind, hleftpg]
  -- the entry for the right half
  have hmem := path_mem hpath parent (by simp)
  have hlt : parent.pgno < ps₁.length :=
    hrep₁.lt_length _ (by simp only [View.pgnos, List.nil_append, List.flatten_cons,
      List.map_append, List.mem_append]; tauto)
  obtain ⟨key, hkey⟩ := hpfx.parentKey hlast hfirst (ps₁[parent.pgno].prevpg = pInvalid)
    (parent.index + 1)
  have hlen := parentKey_length hkey
  have hcarries := carries_leaf (t := { t₁ with pages := ps₁ }) (D := []) hrep₁ hx.type hlast hfirst
    (List.getElem?_eq_getElem hlt) hkey
  have hentry : Entry c cs _ _ _ := entry_leaf sp.right (Nat.le_trans hlen.1 hslot.key.1) hlen.2
    hslot.key.2
  have hfit₁ : SplitsFit c ps₁ (parent :: rest) x.type H.1 H.2 := by
    rw [hx.type]
    exact hfit.congr fun e he => hagree e.pgno (path_mem hpath e he)
  have hraises := btSplitLoop_spec (t := { t₁ with pages := ps₁ }) (D := []) hs hrep₁
    hshape.tower.2 hshape.internal hpath rfl hLne hRne hcarries hentry rfl hfit₁
  rw [← hstack₁] at hraises
  refine hraises.mono ?_
  rintro t' ⟨ups', fs'', hsuffix', hrep', hgrown, hint', honly'⟩
  refine ⟨x.pgno, sp.right, ups', fs'', v₁, w, tbl, bl₂, _, hlast, hfirst, hsuffix'.trans hsuffix,
    .inr ⟨_, _, key, hkey, rfl⟩, ?_, ?_, ?_, by simpa using hrep', ?_⟩
  · simpa [itemKey] using hgrown.fences_eq
  · simpa using hgrown.low
  · exact hshape.split hlinp hnew hrefs happ hL hR (by simp [hfirst])
      (hgrown.tower_cons hshape.tower rfl) hint'
  · have hstack' := congrArg (fun x : Btree => { x with stack := t.stack }) honly'
    exact (honly.withStack ps₁).trans hstack'

theorem btSplit_root (hs : Sound c) (hshape : Shape c cs [x] [])
    (hrep : Rep (plen c) t.pages t.free ⟨[[x]], cs, fs⟩) (hstack : t.stack = [])
    (hget : t.pages[x.pgno]? = some pg) (hlinp : x.linp = u ++ v) (hne : x.linp ≠ [])
    (hitems : x.linp = items.map some) (hnew : LeafSlot c cs (some (.bl bl)))
    (hrefs : (leafRefs [{ x with linp := u ++ some (.bl bl) :: v }]).Nodup)
    (hpage : PageFits c pg items u.length (.bl bl)) :
    Ensures (· = .nospace) (btSplit c t x.pgno (.bl bl) u.length)
      (Splits c t cs fs [] x [] [] (pageHalves c pg items u.length (.bl bl)).1
        (pageHalves c pg items u.length (.bl bl)).2) := by
  have hx := hshape.leaf x (by simp)
  have hroot : x.pgno = pRoot := by simpa [Tower, kids] using hshape.tower.1
  obtain ⟨pg', hget', hpg⟩ := Rep.getNode (D := []) (A := []) (B := []) hrep
  obtain rfl : pg = pg' := Option.some.inj (hget.symm.trans hget')
  have hskip : u.length ≤ items.length := by
    have := congrArg List.length (hitems.symm.trans hlinp)
    simp only [List.length_map, List.length_append] at this
    omega
  obtain ⟨happ, hLne, hRne, hL, hR⟩ := hpage.halves hs (by rintro rfl; exact hne hitems)
    (hpg.linp.trans hitems) (hpg.linp ▸ hx.fits) hskip hnew.nbytes_le
  rw [← hitems, hlinp, insertIdx_append_right _ _ (Nat.le_refl _), Nat.sub_self,
    List.insertIdx_zero] at happ
  obtain ⟨v₁, w, tbl, bl₂, hlast, hfirst, hslot⟩ :=
    exists_sides (A := []) (B := []) hshape hlinp hnew happ hLne hRne
  generalize hH : pageHalves c pg items u.length (.bl bl) = H at *
  rw [btSplit]
  refine (splitPage_root (D := []) hs hrep hroot hget hitems hx.fits hskip hpage).bind ?_
  rintro ⟨t₁, sp⟩ ⟨fs', ps₁, hsuffix, honly, hstore, hrep₁, hnot, hsame⟩
  dsimp only at honly hstore hrep₁ hnot ⊢
  rw [hH] at hrep₁ hnot
  obtain ⟨rp, hrget, hrp⟩ := Rep.getNode (D := []) (U := [])
    (A := [{ x with pgno := sp.left, linp := H.1 }]) (B := []) hrep₁
  have hrslot : rp.getBleaf 0 = .ok bl₂ := by
    simp [Page.getBleaf, slot_zero (hrp.linp.trans hfirst)]
  have htype : pg.type = .bleaf := hpg.type.trans hx.type
  -- the root page and its entries
  let m : Node := ⟨x.pgno, .binternal,
    [some (.bi ⟨[], sp.left, false⟩), some (.bi ⟨bl₂.key, sp.right, false⟩)]⟩
  have hne : x.pgno ≠ pInvalid := (Rep.nonzero_node (D := []) (A := []) (B := []) hrep).1
  have hrep₂ := hrep₁.addRoot (x := m) (h := { pg with
      type := .binternal, dead := none
      linp := [some (.bi ⟨[], sp.left, false⟩), some (.bi ⟨bl₂.key, sp.right, false⟩)] })
    hnot hne (List.getElem?_eq_some_iff.1 hsame).1 ⟨hpg.pgno, hpg.prevpg, hpg.nextpg, rfl, rfl⟩
  obtain ⟨ps₃, heq₃, hrep₃, -, -⟩ := finLeaf_spec (t := { t₁ with pages := ps₁.set x.pgno { pg with
      type := .binternal, dead := none
      linp := [some (.bi ⟨[], sp.left, false⟩), some (.bi ⟨bl₂.key, sp.right, false⟩)] } })
    hslot.key.2 hrep₂
  have hbroot : fixRoot c { t₁ with pages := ps₁ } x.pgno sp.left sp.right =
      .ok { t₁ with pages := ps₃ } := by
    rw [fixRoot, if_pos hroot, hs.recno]
    simp only [Bool.false_eq_true, if_false, btBroot, mpoolGet, hsame, hrget, htype, hrslot, ok_bind,
      setPage]
    exact heq₃
  have hstack₁ : ({ t₁ with pages := ps₃ } : Btree).stack = [] := by
    rw [SplitOnly] at honly
    rw [honly]
    exact hstack
  rw [hstore, ok_bind, hbroot, ok_bind, hstack₁, btSplitLoop]
  refine ⟨sp.left, sp.right, [[m]], fs', v₁, w, tbl, bl₂, bl₂.key, hlast, hfirst, hsuffix,
    .inl ⟨rfl, rfl⟩, ⟨[], none, [], rfl, rfl, rfl⟩,
    fun le hbot _ _ => ⟨⟨fun e _ => hbot _, trivial⟩, trivial⟩, ?_, by simpa using hrep₃,
    honly.withStack ps₃⟩
  refine Shape.split (A := []) (B := []) hshape hlinp hnew hrefs happ hL hR (by simp [hfirst])
    ⟨rfl, ?_, trivial⟩ ?_
  · simp [m, kids, hroot]
  · intro up hup n hn
    obtain rfl : up = [m] := by simpa using hup
    obtain rfl : n = m := by simpa using hn
    have hentry : InternalSlot c cs (some (.bi ⟨bl₂.key, sp.right, false⟩)) :=
      ⟨_, rfl, hslot.key.1, by simp⟩
    exact rootNode hs x.pgno sp.left (hentry.mark bl₂)

theorem btSplit_spec (hs : Sound c) (hshape : Shape c cs (A ++ x :: B) ups)
    (hrep : Rep (plen c) t.pages t.free ⟨(A ++ x :: B) :: ups, cs, fs⟩)
    (hpath : Path Node.linp Node.pgno ups A.length (path t.stack))
    (hget : t.pages[x.pgno]? = some pg) (hlinp : x.linp = u ++ v) (hne : x.linp ≠ [])
    (hitems : x.linp = items.map some) (hnew : LeafSlot c cs (some (.bl bl)))
    (hrefs : (leafRefs (A ++ { x with linp := u ++ some (.bl bl) :: v } :: B)).Nodup)
    (hpage : PageFits c pg items u.length (.bl bl))
    (hfit : SplitsFit c t.pages t.stack .bleaf (pageHalves c pg items u.length (.bl bl)).1
      (pageHalves c pg items u.length (.bl bl)).2)
    (hpfx : Separable c (pageHalves c pg items u.length (.bl bl)).1
      (pageHalves c pg items u.length (.bl bl)).2) :
    Ensures (· = .nospace) (btSplit c t x.pgno (.bl bl) u.length)
      (Splits c t cs fs A x B ups (pageHalves c pg items u.length (.bl bl)).1
        (pageHalves c pg items u.length (.bl bl)).2) := by
  by_cases hups : ups = []
  · subst hups
    obtain ⟨hA, hstack⟩ := hpath
    obtain rfl := List.length_eq_zero_iff.1 hA
    obtain rfl : B = [] := by
      have := congrArg List.length hshape.tower.1
      simpa [kids] using this
    exact btSplit_root hs hshape hrep (by simpa [path] using hstack) hget hlinp hne hitems hnew hrefs
      hpage
  · exact btSplit_page hs hshape hrep hpath hups hne hget hlinp hitems hnew hrefs hpage hfit hpfx

end

end Btree

end Bsdi.Db
