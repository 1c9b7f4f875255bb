import Bsdi.Db.Btree.LeafSplit
import Bsdi.Db.Btree.Store

/-!
# Inserting a record

The end of `__bt_put`: the record is stored on its leaf page, or the page is split. The
keys stay in order if the record belongs where it is inserted.
-/

namespace Bsdi.Db

open Bsdi.Lib

namespace Btree

variable {c : Config} {t : Btree} {cs cs' : List Chain} {fs : List Pgno}
variable {leaves A B : List Node} {ups ups' : List (List Node)} {x : Node}
variable {u v L R : List (Option Item)} {bl : BLeaf} {q₁ q₂ : Pgno}

/-- The pages of `t` hold a well-formed tree. -/
structure Tree (c : Config) (t : Btree) (cs : List Chain) (fs : List Pgno) (leaves : List Node)
    (ups : List (List Node)) : Prop where
  rep : Rep (plen c) t.pages t.free ⟨leaves :: ups, cs, fs⟩
  shape : Shape c cs leaves ups

theorem tree_new (hs : Sound c) : Tree c (newTree .bleaf) [] [] [⟨pRoot, .bleaf, []⟩] [] where
  rep :=
    { linked := by
        intro level hlevel
        obtain rfl : level = [⟨pRoot, .bleaf, []⟩] := by simpa using hlevel
        exact ⟨⟨_, rfl, ⟨rfl, rfl, rfl, rfl, rfl⟩⟩, trivial⟩
      chains := by simp
      free := rfl
      nodup := by simp [View.pgnos]
      nonzero := by simp [View.pgnos, pRoot, pInvalid]
      pos := by simp [newTree]
      max := by simp [newTree, u32Mod] }
  shape :=
    { tower := ⟨rfl, trivial⟩
      leaf := by
        intro n hn
        obtain rfl : n = ⟨pRoot, .bleaf, []⟩ := by simpa using hn
        refine ⟨rfl, by simp, ?_⟩
        have := hs.room
        simp only [Fits, List.length_nil, List.map_nil, List.sum_nil]
        omega
      internal := by simp
      refs := by simp [leafRefs] }

section

variable {ord : Dbt → Dbt → Int} {key s : Dbt}

theorem nodeKeys_mk (n : Node) (linp : List (Option Item)) :
    nodeKeys cs { n with linp := linp } = linp.filterMap (slotKey cs) := rfl

theorem PlacedAt.fenced (hord : TotalCmp ord)
    (h : Fenced ord (leafFences cs ups) ((A ++ x :: B).map (nodeKeys cs))) (hlinp : x.linp = u ++ v)
    (hplaced : PlacedAt ord cs ups A u v key false) (bl : BLeaf) (hkey : itemKey cs (.bl bl) = key) :
    Fenced ord (leafFences cs ups)
      ((A ++ { x with linp := u ++ some (.bl bl) :: v } :: B).map (nodeKeys cs)) := by
  obtain ⟨X, low, Y, hXY, hX, hlow, hnext⟩ := hplaced.brackets
  rw [List.map_append, List.map_cons, hXY] at h ⊢
  have hkeys : nodeKeys cs x = u.filterMap (slotKey cs) ++ v.filterMap (slotKey cs) := by
    rw [nodeKeys, hlinp, List.filterMap_append]
  have hkeys' : nodeKeys cs { x with linp := u ++ some (.bl bl) :: v } =
      u.filterMap (slotKey cs) ++ key :: v.filterMap (slotKey cs) := by
    rw [nodeKeys_mk, List.filterMap_append, List.filterMap_cons_some (b := key)]
    simp [slotKey, hkey]
  rw [hkeys] at h
  rw [hkeys']
  exact h.insert_key hord (by simpa using hX) hlow hnext hplaced.below (hplaced.miss rfl)

theorem fenced_split (hord : TotalCmp ord)
    (htower : Tower Node.linp slotChild Node.pgno pRoot ((A ++ x :: B) :: ups))
    (h : Fenced ord (leafFences cs ups)
      ((A ++ { x with linp := u ++ some (.bl bl) :: v } :: B).map (nodeKeys cs)))
    (happ : L ++ R = u ++ some (.bl bl) :: v)
    (hfences : InsertedAfter A.length (some s) (leafFences cs ups) (leafFences cs ups'))
    (hL : L.filterMap (slotKey cs) ≠ []) (hR : R.filterMap (slotKey cs) ≠ [])
    (hlt : ∀ a ∈ L.filterMap (slotKey cs), ord a s < 0)
    (hge : ∀ b ∈ R.filterMap (slotKey cs), ¬ ord b s < 0) :
    Fenced ord (leafFences cs ups') ((A ++ { x with pgno := q₁, linp := L } ::
      { x with pgno := q₂, linp := R } :: B).map (nodeKeys cs)) := by
  obtain ⟨X, low, Y, hXY, hX, -⟩ := htower.split_fences (slotKey cs)
  rw [hfences.eq hXY hX]
  rw [leafFences, hXY, ← happ, List.map_append, List.map_cons, nodeKeys_mk, List.filterMap_append] at h
  simpa [nodeKeys] using h.split hord (by simpa using hX) hL hR hlt hge

end

/-- The outcome of an insert into a page with room. -/
structure Stays (c : Config) (t : Btree) (cs : List Chain) (fs : List Pgno) (A : List Node)
    (x : Node) (B : List Node) (ups : List (List Node)) (u v : List (Option Item)) (bl : BLeaf)
    (t' : Btree) : Prop where
  tree : Tree c t' cs fs (A ++ { x with linp := u ++ some (.bl bl) :: v } :: B) ups
  eq : t' = { t with
    pages := t'.pages, cursor := t'.cursor, order := t'.order, last := t'.last }
  note : t'.order = t.order ∧ t'.last = t.last ∨
    t.order = .not ∧ t'.last.pgno = x.pgno ∧ (t'.order = .back → B ≠ [])

structure CanSplit (c : Config) (t : Btree) (A : List Node) (ups : List (List Node)) (pg : Page)
    (items : List Item) (u v : List (Option Item)) (bl : BLeaf) : Prop where
  path : Path Node.linp Node.pgno ups A.length (path t.stack)
  page : PageFits c pg items u.length (.bl bl)
  parents : SplitsFit c t.pages t.stack .bleaf (pageHalves c pg items u.length (.bl bl)).1
    (pageHalves c pg items u.length (.bl bl)).2
  pfx : ∀ L R, L ++ R = u ++ some (.bl bl) :: v → Separable c L R

theorem LeafNode.items {n : Node} (h : LeafNode c cs n) : ∃ items : List Item, n.linp = items.map some :=
  exists_items fun s hs => by
    obtain ⟨bl, rfl, -⟩ := h.slots s hs
    exact ⟨_, rfl⟩

theorem Tree.insert (htree : Tree c t cs fs (A ++ x :: B) ups) (hlinp : x.linp = u ++ v)
    (hnew : LeafSlot c cs (some (.bl bl)))
    (hrefs : (leafRefs (A ++ { x with linp := u ++ some (.bl bl) :: v } :: B)).Nodup)
    (hfits : Fits c (u ++ some (.bl bl) :: v)) :
    Shape c cs (A ++ { x with linp := u ++ some (.bl bl) :: v } :: B) ups where
  tower := by
    refine ⟨?_, htree.shape.tower.2⟩
    rw [← htree.shape.tower.1]
    simp
  leaf n hn := by
    have hx := htree.shape.leaf x (by simp)
    simp only [List.mem_append, List.mem_cons] at hn
    rcases hn with hn | rfl | hn
    · exact htree.shape.leaf n (by simp [hn])
    · refine ⟨hx.type, fun s hs => ?_, hfits⟩
      have hs' : s = some (.bl bl) ∨ s ∈ x.linp := by
        simp only [hlinp, List.mem_append, List.mem_cons] at hs ⊢
        tauto
      rcases hs' with rfl | hs'
      · exact hnew
      · exact hx.slots s hs'
    · exact htree.shape.leaf n (by simp [hn])
  internal := htree.shape.internal
  refs := hrefs

theorem noteOrder_spec {h : Page} {t' : Btree} (pg index : Nat)
    (ht' : t' = (t.cursorUp pg index).noteOrder h index) :
    t' = { t with cursor := t'.cursor, order := t'.order, last := t'.last } ∧
    (t'.order = t.order ∧ t'.last = t.last ∨
      t.order = .not ∧ t'.last.pgno = h.pgno ∧ (t'.order = .back → h.nextpg ≠ pInvalid)) := by
  subst ht'
  unfold cursorUp noteOrder
  split_ifs <;> refine ⟨rfl, ?_⟩ <;> simp_all

theorem insertLeaf_spec (hs : Sound c) (htree : Tree c t cs fs (A ++ x :: B) ups)
    (hlinp : x.linp = u ++ v) (hnew : LeafSlot c cs (some (.bl bl)))
    (hrefs : (leafRefs (A ++ { x with linp := u ++ some (.bl bl) :: v } :: B)).Nodup)
    (hsplit : ∀ pg items, t.pages[x.pgno]? = some pg → x.linp = items.map some →
      pg.room c.psize < (Item.bl bl).nbytes + indxSize → CanSplit c t A ups pg items u v bl) :
    Ensures (· = .nospace) (insertLeaf c t x.pgno u.length bl) fun t' =>
      Stays c t cs fs A x B ups u v bl t' ∨
      ∃ pg items L R, t.pages[x.pgno]? = some pg ∧
        pg.room c.psize < (Item.bl bl).nbytes + indxSize ∧
        L ++ R = u ++ some (.bl bl) :: v ∧ L = (pageHalves c pg items u.length (.bl bl)).1 ∧
        R = (pageHalves c pg items u.length (.bl bl)).2 ∧ Splits c t cs fs A x B ups L R t' := by
  have hrep := htree.rep
  obtain ⟨pg, hget, hpg⟩ := Rep.getNode (D := []) hrep
  have hx := htree.shape.leaf x (by simp)
  obtain ⟨items, hitems⟩ := hx.items
  have hroomiff := room_lt_iff (Item.bl bl).nbytes hs hpg hitems hx.fits
    (by rw [hx.type]; decide) (by
      have := hs.room
      have := hnew.nbytes_le
      omega)
  have hskip : u.length ≤ items.length := by
    have := congrArg List.length (hitems.symm.trans hlinp)
    simp only [List.length_map, List.length_append] at this
    omega
  rw [insertLeaf]
  simp only [mpoolGet, hget, ok_bind]
  split_ifs with hroom
  · have hne : x.linp ≠ [] := by
      intro hnil
      rw [hroomiff] at hroom
      have := hs.room
      have := hnew.nbytes_le
      simp only [hnil, List.length_nil, List.map_nil, List.sum_nil] at hroom
      omega
    have hcan := hsplit pg items hget hitems hroom
    have happ := (hcan.page.halves hs (by rintro rfl; exact hne hitems) (hpg.linp.trans hitems)
      (hpg.linp ▸ hx.fits) hskip hnew.nbytes_le).1
    rw [← hitems, hlinp, insertIdx_append_right _ _ (Nat.le_refl _), Nat.sub_self,
      List.insertIdx_zero] at happ
    refine (btSplit_spec hs htree.shape hrep hcan.path hget hlinp hne hitems hnew hrefs hcan.page
      hcan.parents (hcan.pfx _ _ happ)).mono fun t' h => .inr ?_
    exact ⟨pg, items, _, _, rfl, hroom, happ, rfl, rfl, h⟩
  · have hfits : Fits c (u ++ some (.bl bl) :: v) := by
      have := fits_insert (c := c) (u ++ v) u.length (.bl bl) (by simp)
        (by rw [← hlinp]; rw [hroomiff] at hroom; omega)
      rwa [insertIdx_append_right _ _ (Nat.le_refl _), Nat.sub_self, List.insertIdx_zero] at this
    obtain ⟨ps', heq, hrep', -, -⟩ := storeItem_open (c := c) (D := []) (.bl bl) hrep hget hlinp hfits
    obtain ⟨pg', hget', hpg'⟩ := Rep.getNode (D := []) hrep'
    rw [heq, ok_bind]
    simp only [hget', ok_bind]
    left
    generalize ht' : noteOrder _ pg' u.length = t'
    obtain ⟨honly, hlast⟩ := noteOrder_spec x.pgno u.length ht'.symm
    have hpages : t'.pages = ps' ∧ t'.free = t.free := by
      rw [honly]
      exact ⟨rfl, rfl⟩
    refine ⟨⟨?_, htree.insert hlinp hnew hrefs hfits⟩, ?_, ?_⟩
    · rw [hpages.1, hpages.2]
      exact hrep'
    · rw [honly]
    · refine hlast.imp id fun h => ⟨h.1, h.2.1.trans hpg'.pgno, fun hback hnil => h.2.2 hback ?_⟩
      rw [hpg'.nextpg, hnil]
      rfl

end Btree

end Bsdi.Db
